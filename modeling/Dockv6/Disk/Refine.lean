import Dockv6.Disk.Files
import Dockv6.Kernel.File

/-!
# What inodes hold, on blocks

Path lookup and the calls on files work on what an inode holds, a `Node`, with `Dockv6.readi`,
`Dockv6.writei` and, for a directory, `writeDirent`. Where an inode of a disk `Stores` a node,
`readi` and `writei` on its blocks do the same, and no other inode stores anything else than before.
-/

namespace Dockv6.Disk

open Function

variable {s s' : Img} {F : ℕ → Dinode} {d' : Dinode} {devsw : ℕ → Devsw} {i k off n : ℕ}
  {node node' : Node} {data old : Bytes} {ents : List Dirent} {de : Dirent}

/-! ## The bytes of a directory -/

theorem length_bytes (de : Dirent) : de.bytes.length = 16 := by
  simp only [Dirent.bytes, strncpyBytes, strlen, List.length_append, List.length_cons,
    List.length_nil, List.length_take, List.length_replicate, DIRSIZ]
  omega

theorem size_dir (ents : List Dirent) : (Node.dir ents).size = 16 * ents.length := by
  simp [Node.size, Node.content, List.length_flatMap, length_bytes, Nat.mul_comm]

theorem take_content (ents : List Dirent) (k : ℕ) :
    (ents.flatMap Dirent.bytes).take (16 * k) = (ents.take k).flatMap Dirent.bytes := by
  induction ents generalizing k with
  | nil => simp
  | cons de ents ih =>
    cases k with
    | zero => simp
    | succ k =>
      rw [List.flatMap_cons, List.take_succ_cons, List.flatMap_cons, ← ih, List.take_append,
        length_bytes,
        List.take_of_length_le (by rw [length_bytes]; omega),
        show 16 * (k + 1) - 16 = 16 * k by omega]

theorem drop_content (ents : List Dirent) (k : ℕ) :
    (ents.flatMap Dirent.bytes).drop (16 * k) = (ents.drop k).flatMap Dirent.bytes := by
  induction ents generalizing k with
  | nil => simp
  | cons de ents ih =>
    cases k with
    | zero => simp
    | succ k =>
      rw [List.flatMap_cons, List.drop_succ_cons, ← ih, List.drop_append, length_bytes,
        List.drop_of_length_le (by rw [length_bytes]; omega), List.nil_append,
        show 16 * (k + 1) - 16 = 16 * k by omega]

/-- An entry is written over its 16 bytes, or after the last one. -/
theorem content_writeDirent (hk : k ≤ ents.length) : (Node.dir (writeDirent ents k de)).content =
    (Node.dir ents).content.take (16 * k) ++ de.bytes ++ (Node.dir ents).content.drop
    (16 * k + de.bytes.length) := by
  simp only [Node.content]
  rw [length_bytes, show 16 * k + 16 = 16 * (k + 1) by omega, take_content, drop_content]
  unfold writeDirent
  split_ifs with hlt
  · rw [List.set_eq_take_append_cons_drop, if_pos hlt]
    simp
  · rw [List.take_of_length_le (by omega), List.drop_of_length_le (by omega)]
    simp

/-! ## Nodes on a disk -/

/-- The type in `struct dinode` of an inode that holds the node. -/
def kind : Node → ℕ
  | .free => 0
  | .dir _ => T_DIR
  | .file _ => T_FILE
  | .dev _ _ => T_DEV

/-- The inode has the type of the node, and its blocks have the bytes of it. -/
structure Stores (s : Img) (d : Dinode) (node : Node) : Prop where
  type : d.type = kind node
  bytes : slice (s.byte d) 0 d.size = node.content

theorem Stores.size {d : Dinode} (h : Stores s d node) : d.size = node.size := by
  rw [Node.size, ← h.bytes, length_slice]

theorem Stores.not_dev (h : Stores s (F i) node) (hdev : node.isDev = false) :
    (F i).type ≠ T_DEV := by
  rw [h.type]
  cases node with
  | free => exact (by decide : 0 ≠ T_DEV)
  | dir ents => exact (by decide : T_DIR ≠ T_DEV)
  | file data => exact (by decide : T_FILE ≠ T_DEV)
  | dev a b => cases hdev

/-- **`readi` on blocks is `readi` on the node.** -/
theorem readi_refines (h : OpenFile s F i) (hst : Stores s (F i) node) (hdev : node.isDev = false)
    (hoff : off < 2 ^ 32) (hn : n < 2 ^ 32) :
    readi devsw s (F i) off n = .ok (Dockv6.readi node off n, F i, s) := by
  rw [h.readi_eq devsw (hst.not_dev hdev) hoff hn, Dockv6.readi, hst.size]
  split_ifs with hbad
  · rfl
  · rw [← hst.bytes, drop_slice, take_slice, hst.size, Nat.zero_add]
    congr 4
    omega

/-- `dirlookup` reads its entries one by one. -/
theorem readi_dirent (h : OpenFile s F i) (hst : Stores s (F i) (.dir ents))
    (hk : k < ents.length) :
    readi devsw s (F i) (16 * k) 16 = .ok (some ents[k].bytes, F i, s) := by
  have hmax : (F i).size ≤ MAXFILE * BSIZE := h.size_le
  rw [hst.size, size_dir] at hmax
  simp only [MAXFILE, BSIZE] at hmax
  rw [readi_refines h hst rfl (by omega) (by decide), Dockv6.readi, size_dir, if_neg (by omega)]
  simp only [Node.content]
  rw [drop_content, List.drop_eq_getElem_cons hk, List.flatMap_cons,
    List.take_left' (length_bytes _)]

/-- The inode holds `node'` now, and the other inodes what they held. -/
structure NowStores (s : Img) (F : ℕ → Dinode) (i : ℕ) (s' : Img) (d' : Dinode) (node' : Node) :
    Prop where
  file : OpenFile s' (update F i d') i
  self : Stores s' d' node'
  other : ∀ n node, s.sb.Live F n → n ≠ i → Stores s (F n) node → Stores s' (F n) node

theorem ArrayWritten.nowStores (h : ArrayWritten s F i off data s' d') (hst : Stores s (F i) node)
    (hoff : off ≤ node.size) (hkind : kind node' = kind node)
    (hcontent : node'.content = node.content.take off ++ data ++ node.content.drop
      (off + data.length)) : NowStores s F i s' d' node' := by
  refine ⟨h.file, ⟨by rw [h.type, hst.type, hkind], ?_⟩,
    fun n node hn hne hnode => ⟨hnode.type, ?_⟩⟩
  · rw [← hst.size] at hoff
    have hsize : d'.size = off + data.length + ((F i).size - (off + data.length)) := by
      rw [h.size]
      omega
    have hlow : slice (s'.byte d') 0 off = slice (s.byte (F i)) 0 off :=
      slice_congr fun k hk => h.rest _ (by omega) (.inl (by omega))
    have hhigh : slice (s'.byte d') (off + data.length) ((F i).size - (off + data.length)) =
        slice (s.byte (F i)) (off + data.length) ((F i).size - (off + data.length)) :=
      slice_congr fun k hk => h.rest _ (by omega) (.inr (by omega))
    rw [hsize, slice_add, slice_add, Nat.zero_add, Nat.zero_add, h.written, hcontent,
      ← hst.bytes, take_slice, drop_slice, min_eq_left hoff, Nat.zero_add, hlow, hhigh]
  · rw [← hnode.bytes]
    exact slice_congr fun k _ => h.other n hn hne _

/-- **`writei` on the blocks of a file is `writei` on its bytes.** -/
theorem writei_refines (h : OpenFile s F i) (hst : Stores s (F i) (.file old)) (hoff : off < 2 ^ 32)
    (hn : data.length < 2 ^ 32) (hfree : s.need (F i) (blocksOf off data.length) ≤ s.freeCount) :
    (Dockv6.writei (.file old) off data = none → writei devsw s i (F i) off data = .ok (-1, F i, s))
    ∧ ∀ node', Dockv6.writei (.file old) off data = some node' → ∃ d' s',
        writei devsw s i (F i) off data = .ok (data.length, d', s') ∧
        NowStores s F i s' d' node' := by
  have hdev := hst.not_dev rfl
  unfold Dockv6.writei
  rw [← hst.size]
  split_ifs with hbad
  · exact ⟨fun _ => writei_eq_neg devsw hdev hoff hn hbad, fun _ hnode => hnode.elim⟩
  · refine ⟨False.elim, fun node' hnode => ?_⟩
    cases hnode
    obtain ⟨d', s', hw, harray⟩ := h.writei_array devsw hdev (by omega) (by omega) hfree
    exact ⟨d', s', hw, harray.nowStores hst (by rw [← hst.size]; omega) rfl rfl⟩

/-- **`dirlink` and `unlink` write one entry**, of the directory on blocks as of the list of
entries. -/
theorem writei_dirent (h : OpenFile s F i) (hst : Stores s (F i) (.dir ents)) (hk : k ≤ ents.length)
    (hmax : (k + 1) * 16 ≤ MAXFILE * BSIZE)
    (hfree : s.need (F i) (blocksOf (16 * k) 16) ≤ s.freeCount) :
    ∃ d' s', writei devsw s i (F i) (16 * k) de.bytes = .ok (16, d', s') ∧
      NowStores s F i s' d' (.dir (writeDirent ents k de)) := by
  have hoff : 16 * k ≤ (Node.dir ents).size := by
    rw [size_dir]
    omega
  have hfree' : s.need (F i) (blocksOf (16 * k) de.bytes.length) ≤ s.freeCount := by
    rwa [length_bytes]
  obtain ⟨d', s', hw, harray⟩ := h.writei_array devsw (hst.not_dev rfl) (hst.size ▸ hoff)
    (by rw [length_bytes]; omega) hfree'
  rw [length_bytes] at hw
  exact ⟨d', s', hw, harray.nowStores hst hoff rfl (content_writeDirent hk)⟩

end Dockv6.Disk
