import Dockv6.Fs.Inode

/-!
# Directories

`namecmp`, `dirlookup`, `dirlink` and `isdirempty`. `Fs.entry` is the lookup as a function of the
disk alone: the inode number that a name stands for in a directory. `Child` is a directory's link
to what it holds, under any name other than `.` and `..`.
-/

namespace Dockv6

/-- The contents of a buffer `char name[DIRSIZ]`: at most `DIRSIZ` bytes, up to the first zero. -/
structure Name where
  bytes : Bytes
  length_le : bytes.length ≤ DIRSIZ
  ne_zero : 0 ∉ bytes

namespace Name

/-- The name `.` -/
def dot : Name := ⟨[46], by decide, by decide⟩

/-- The name `..` -/
def dotdot : Name := ⟨[46, 46], by decide, by decide⟩

end Name

/-- Compare two names. -/
def namecmp (s t : Bytes) : Int := strncmp s t DIRSIZ

namespace Dirent

/-- Does the entry carry this name? -/
def named (de : Dirent) (name : Name) : Bool := namecmp name.bytes de.name == 0

/-- An entry that a lookup can find, with a name other than `.` and `..`. -/
def isLink (de : Dirent) : Bool := !de.named .dot && !de.named .dotdot

end Dirent

/-- The loop of `dirlookup`: the position and the inode number of the first entry that matches. -/
def scanDir (name : Name) : List Dirent → ℕ → Option (ℕ × ℕ)
  | [], _ => none
  | de :: ents, off =>
    if de.inum ≠ 0 ∧ de.named name then some (off, de.inum) else scanDir name ents (off + 1)

/-- Look for a directory entry in a directory. -/
def dirlookup (fs : Fs) (dp : Slot) (name : Name) : Res (Option (Slot × ℕ) × Fs) :=
  match fs.node dp with
  | .dir ents =>
    match scanDir name ents 0 with
    | none => .ok (none, fs)
    | some (off, inum) => do
      let (ip, fs) ← iget fs inum
      return (some (ip, off), fs)
  | _ => .error (.panic "dirlookup not DIR")

/-- The entries after `writei` of one entry at the position `off`. -/
def writeDirent (ents : List Dirent) (off : ℕ) (de : Dirent) : List Dirent :=
  if off < ents.length then ents.set off de else ents ++ [de]

/-- Replace the entries of a directory. -/
def Fs.setEnts (fs : Fs) (dp : Slot) (ents : List Dirent) : Fs :=
  fs.setDinode (fs.icache dp).inum { fs.dinode dp with node := .dir ents }

/-- Write a new directory entry `(name, inum)` into the directory `dp`. -/
def dirlink (fs : Fs) (dp : Slot) (name : Name) (inum : ℕ) : Res (Int × Fs) := do
  let (found, fs) ← dirlookup fs dp name
  match found with
  | some (ip, _) => return (-1, iput fs ip)
  | none =>
    let ents := (fs.node dp).ents
    let off := ents.findIdx (fun de => de.inum == 0)
    if MAXFILE * BSIZE < (off + 1) * 16 then throw (.panic "dirlink")
    else return (0, fs.setEnts dp (writeDirent ents off ⟨inum, strncpyBytes name.bytes DIRSIZ⟩))

/-- Is the directory empty except for its first two entries? -/
def isdirempty (n : Node) : Bool := (n.ents.drop 2).all (fun de => de.inum == 0)

/-! ## The tree on the disk -/

namespace Fs

/-- The inode number that `name` stands for in the inode `d`, if `d` is a directory with an entry
of that name. -/
def entry (fs : Fs) (d : ℕ) (name : Name) : Option ℕ :=
  (scanDir name (fs.disk d).node.ents 0).map Prod.snd

/-- `c` is linked in the directory `d` under a name other than `.` and `..`. -/
def Child (fs : Fs) (d c : ℕ) : Prop :=
  ∃ de ∈ (fs.disk d).node.ents, de.inum = c ∧ c ≠ 0 ∧ de.isLink = true

end Fs

/-! ## Lookups -/

section Scan

variable {name : Name} {ents : List Dirent} {off o n : ℕ}

theorem scanDir_mem (h : scanDir name ents off = some (o, n)) :
    ∃ de ∈ ents, de.inum = n ∧ n ≠ 0 ∧ de.named name = true := by
  induction ents generalizing off with
  | nil => cases h
  | cons de ents ih =>
    rw [scanDir] at h
    split_ifs at h with hde
    · obtain ⟨rfl, rfl⟩ := Prod.mk.inj (Option.some.inj h)
      exact ⟨de, List.mem_cons_self, rfl, hde.1, hde.2⟩
    · obtain ⟨de', hmem, hprops⟩ := ih h
      exact ⟨de', List.mem_cons_of_mem _ hmem, hprops⟩

/-- Two names for one entry agree: both are its bytes up to a zero, cut at `DIRSIZ`. -/
theorem Dirent.named_inj {de : Dirent} {a b : Name} (ha : de.named a = true)
    (hb : de.named b = true) : a = b := by
  have key : ∀ c : Name, de.named c = true → c.bytes = (cstr de.name).take DIRSIZ := by
    intro c hc
    rw [Dirent.named, beq_iff_eq, namecmp, strncmp_eq_zero_iff] at hc
    have hz : cstr c.bytes = c.bytes :=
      List.takeWhile_eq_self_iff.mpr fun x hx => by
        rw [decide_eq_true_eq]
        rintro rfl
        exact c.ne_zero hx
    rw [← hc, hz, List.take_of_length_le c.length_le]
  cases a
  cases b
  simpa using (key _ ha).trans (key _ hb).symm

theorem mem_writeDirent {ents : List Dirent} {de de' : Dirent} (h : de' ∈ writeDirent ents off de) :
    de' ∈ ents ∨ de' = de := by
  unfold writeDirent at h
  split_ifs at h
  · exact List.mem_or_eq_of_mem_set h
  · simpa using h

end Scan

theorem Fs.entry_eq_some {fs : Fs} {d c : ℕ} {name : Name} (h : fs.entry d name = some c) :
    ∃ de ∈ (fs.disk d).node.ents, de.inum = c ∧ c ≠ 0 ∧ de.named name = true := by
  obtain ⟨⟨o, n⟩, hscan, rfl⟩ := Option.map_eq_some_iff.mp h
  exact scanDir_mem hscan

section Spec

variable {fs fs' : Fs} {dp ip : Slot} {name : Name} {off : ℕ}

/-- The slots that a call got, counted. -/
def got (r : Option (Slot × ℕ)) (j : Slot) : Int :=
  match r with
  | none => 0
  | some (i, _) => if j = i then 1 else 0

theorem dirlookup_spec {r : Option (Slot × ℕ)} (h : dirlookup fs dp name = .ok (r, fs')) :
    (fs.node dp).isDir = true ∧ Counts fs fs' (got r) ∧ fs'.disk = fs.disk ∧
      match r with
      | none => fs' = fs ∧ fs.entry (fs.icache dp).inum name = none
      | some (i, _) => 1 ≤ (fs'.icache i).ref ∧
          fs.entry (fs.icache dp).inum name = some (fs'.icache i).inum := by
  unfold dirlookup at h
  split at h
  · rename_i ents hents
    have hdisk : (fs.disk (fs.icache dp).inum).node.ents = ents := by
      rw [show (fs.disk (fs.icache dp).inum).node = fs.node dp from rfl, hents]
      rfl
    refine ⟨by rw [hents]; rfl, ?_⟩
    split at h
    · rename_i hscan
      obtain ⟨rfl, rfl⟩ := Prod.mk.inj (Except.ok.inj h)
      refine ⟨⟨fun j => by simp [got], fun j _ => rfl⟩, rfl, rfl, ?_⟩
      rw [Fs.entry, hdisk, hscan]
      rfl
    · rename_i o inum hscan
      obtain ⟨⟨i, fs1⟩, hget, hret⟩ := bind_eq_ok.mp h
      obtain ⟨rfl, rfl⟩ := Prod.mk.inj (Except.ok.inj hret)
      obtain ⟨hcounts, hinum, href, hd⟩ := iget_spec hget
      refine ⟨hcounts, hd, href, ?_⟩
      rw [Fs.entry, hdisk, hscan, hinum]
      rfl
  · cases h

theorem dirlookup_frees {r : Option (Slot × ℕ)} (h : dirlookup fs dp name = .ok (r, fs')) :
    Frees fs fs' := by
  unfold dirlookup at h
  split at h
  · split at h
    · cases h
      exact .refl fs
    · obtain ⟨⟨i, fs1⟩, hget, hret⟩ := bind_eq_ok.mp h
      cases hret
      exact iget_frees hget
  · cases h

end Spec

end Dockv6
