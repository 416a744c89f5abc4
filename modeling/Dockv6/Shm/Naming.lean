import Dockv6.Foundations.RefCount
import Dockv6.Vm.Exact
import Dockv6.Kernel.Boot

/-!
# Shared pages and their names

`shm_get` and `shm_rem` search with `strncmp` over the length of the name that they are given, so
that a search stops at a name that only starts with it (`prefix_refused`). The machine of this
module records for each slot the name and the container that it was created with; `ShmNames` says
what the arrays of names contain.
-/

namespace Dockv6

open Kernel Function

/-! ## Names in their arrays -/

/-- The name in an array of 16 bytes. -/
def padded (n : Bytes) : Bytes := n ++ List.replicate (16 - n.length) 0

/-- A name that fits with its terminator, and is not empty. -/
structure ShortName (n : Bytes) : Prop where
  cstr : cstr n = n
  pos : n ≠ []
  lt : n.length < 16

theorem cstr_replicate_zero (k : ℕ) : cstr (List.replicate k 0) = [] := by
  cases k <;> simp [cstr, List.replicate_succ]

theorem cstr_padded {n : Bytes} (h : cstr n = n) : cstr (padded n) = n := by
  have happend := cstr_append n (List.replicate (16 - n.length) 0)
  rwa [h, cstr_replicate_zero, List.append_nil] at happend

theorem padded_nil : padded [] = List.replicate 16 0 := rfl

theorem strncpy_padded (name : Bytes) :
    strncpy (padded []) name (strlen name) = padded (cstr name) := by
  rw [strncpy, strncpyBytes, padded_nil, List.drop_replicate, strlen, List.take_length,
    Nat.sub_self]
  simp [padded]

theorem clearName_padded {n : Bytes} (h : cstr n = n) (hlen : n.length < 16) :
    clearName (padded n) = padded [] := by
  have hstr : strlen (padded n) = n.length := by rw [strlen, cstr_padded h]
  have hsum : n.length + (16 - n.length) = 16 := by omega
  rw [clearName, hstr, strncpy, strncpyBytes, padded, List.drop_left, padded_nil, strlen_nil]
  simp [hsum]

/-- The comparison of the searches: does the stored name start with the one asked for? -/
theorem strncmp_padded {m name : Bytes} (hm : cstr m = m) :
    strncmp (padded m) name (strlen name) = 0 ↔ cstr name <+: m := by
  rw [strncmp_eq_zero_iff, cstr_padded hm, strlen, List.take_length,
    List.prefix_iff_eq_take, eq_comm]

/-! ## The record -/

/-- For each slot the name and the container that it was created with. -/
abbrev ShmMade := ShmIdx → Option (Bytes × ℕ)

/-- The name on record; a slot without a record has the empty name. -/
def nameOf : Option (Bytes × ℕ) → Bytes
  | none => []
  | some x => x.1

/-- The slot that an entry in use points to. -/
def Kernel.entry (s : Kernel) (k : PIdx × ShmIdx) : Option ShmIdx :=
  if ((s.proc k.1).shared_mem k.2).in_use then ((s.proc k.1).shared_mem k.2).global_ptr else none

/-- The arrays contain what is on record, the slots on record are those that entries refer to, and
the counts are right. -/
structure ShmNames (s : Kernel) (made : ShmMade) : Prop where
  slot : ∀ g, (s.shm g).name = padded (nameOf (made g))
  own : ∀ q i, ((s.proc q).shared_mem i).name = padded (nameOf ((s.entry (q, i)).bind made))
  short : ∀ {g n c}, made g = some (n, c) → ShortName n
  container_id : ∀ {g n c}, made g = some (n, c) → (s.shm g).container_id = c
  in_use : ∀ {g x}, made g = some x → (s.shm g).in_use = true
  points : ∀ q i, ((s.proc q).shared_mem i).in_use = true → ∃ g, s.entry (q, i) = some g
  refers : ∀ {q i g}, s.entry (q, i) = some g → ∃ n, made g = some (n, (s.proc q).container_id)
  inj : ∀ {g g' x}, made g = some x → made g' = some x → g = g'
  once : ∀ {q i j g}, s.entry (q, i) = some g → s.entry (q, j) = some g → i = j
  count : ∀ g, (s.shm g).refcount = (refs s.entry g).card
  pos : ∀ {g x}, made g = some x → 0 < (s.shm g).refcount

section Names

variable {s s' : Kernel} {made : ShmMade} {p : PIdx} {name : Bytes} {i g : ShmIdx}
  {d : Pgdir} {r : Int}

/-- No page of the caller's container has a longer name that starts with this one. -/
def ShmExact (s : Kernel) (made : ShmMade) (p : PIdx) (name : Bytes) : Prop :=
  ∀ g m, made g = some (m, (s.proc p).container_id) → cstr name <+: m → m = cstr name

namespace ShmNames

theorem cstr_nameOf (h : ShmNames s made) (g : ShmIdx) :
    cstr (nameOf (made g)) = nameOf (made g) := by
  cases hg : made g with
  | none => rfl
  | some x => exact (h.short hg).cstr

theorem cstr_nameOf_bind (h : ShmNames s made) (o : Option ShmIdx) :
    cstr (nameOf (o.bind made)) = nameOf (o.bind made) := by
  cases o with
  | none => rfl
  | some g => exact h.cstr_nameOf g

/-- Something on record starts with the name: it is not the empty one. -/
theorem exists_of_prefix {o : Option (Bytes × ℕ)} (hname : cstr name ≠ [])
    (h : cstr name <+: nameOf o) : ∃ n c, o = some (n, c) ∧ cstr name <+: n := by
  rcases o with _ | ⟨n, c⟩
  · exact absurd (List.prefix_nil.mp h) hname
  · exact ⟨n, c, rfl, h⟩

/-- The slots that the search may stop at are the one that was created under the name. -/
theorem shmNamed_iff (h : ShmNames s made) (hname : cstr name ≠ [])
    (hexact : ShmExact s made p name) : s.shmNamed name (s.proc p).container_id g = true ↔
      made g = some (cstr name, (s.proc p).container_id) := by
  rw [shmNamed, Bool.and_eq_true, beq_iff_eq, beq_iff_eq, h.slot, strncmp_padded (h.cstr_nameOf g)]
  constructor
  · rintro ⟨hpre, hcid⟩
    obtain ⟨n, c, hg, hn⟩ := exists_of_prefix hname hpre
    obtain rfl : c = (s.proc p).container_id := (h.container_id hg).symm.trans hcid
    rw [hg, hexact g n hg hn]
  · intro hg
    rw [hg]
    exact ⟨List.prefix_refl _, h.container_id hg⟩

theorem findShm_iff (h : ShmNames s made) (hname : cstr name ≠ [])
    (hexact : ShmExact s made p name) : s.findShm name (s.proc p).container_id = some g ↔
      made g = some (cstr name, (s.proc p).container_id) := by
  constructor
  · intro hg
    exact (h.shmNamed_iff hname hexact).mp (shmNamed_of_findShm hg)
  · intro hg
    have hnamed := (h.shmNamed_iff hname hexact).mpr hg
    obtain ⟨g', hg'⟩ := Option.isSome_iff_exists.mp
      (List.find?_isSome.mpr ⟨g, List.mem_finRange g, hnamed⟩)
    have hmade := (h.shmNamed_iff hname hexact).mp (List.find?_some hg')
    rw [h.inj hg hmade]
    exact hg'

theorem shmemNamed_iff (h : ShmNames s made) (hname : cstr name ≠ [])
    (hexact : ShmExact s made p name) : s.shmemNamed p name i = true ↔
      ∃ g, s.entry (p, i) = some g ∧ made g = some (cstr name, (s.proc p).container_id) := by
  rw [shmemNamed, beq_iff_eq, h.own, strncmp_padded (h.cstr_nameOf_bind _)]
  constructor
  · intro hpre
    obtain ⟨n, c, hn, hpre⟩ := exists_of_prefix hname hpre
    obtain ⟨g, hentry, hg⟩ := Option.bind_eq_some_iff.mp hn
    obtain ⟨n', hg'⟩ := h.refers hentry
    obtain ⟨rfl, rfl⟩ := Prod.mk.inj (Option.some.inj (hg.symm.trans hg'))
    exact ⟨g, hentry, by rw [hg, hexact g n hg hpre]⟩
  · rintro ⟨g, hentry, hg⟩
    rw [hentry, Option.bind_some, hg]
    exact List.prefix_refl _

theorem findShmem_iff (h : ShmNames s made) (hname : cstr name ≠ [])
    (hexact : ShmExact s made p name) : s.findShmem p name = some i ↔
      ∃ g, s.entry (p, i) = some g ∧ made g = some (cstr name, (s.proc p).container_id) := by
  constructor
  · intro hi
    exact (h.shmemNamed_iff hname hexact).mp (shmemNamed_of_findShmem hi)
  · rintro ⟨g, hentry, hg⟩
    have hnamed := (h.shmemNamed_iff hname hexact).mpr ⟨g, hentry, hg⟩
    obtain ⟨j, hj⟩ := Option.isSome_iff_exists.mp
      (List.find?_isSome.mpr ⟨i, List.mem_finRange i, hnamed⟩)
    obtain ⟨g', hentry', hg'⟩ := (h.shmemNamed_iff hname hexact).mp (List.find?_some hj)
    obtain rfl := h.inj hg hg'
    rw [h.once hentry hentry']
    exact hj

theorem made_eq_none (h : ShmNames s made) (hg : (s.shm g).in_use = false) : made g = none := by
  cases hx : made g with
  | none => rfl
  | some x => exact absurd ((h.in_use hx).symm.trans hg) nofun

theorem entry_eq_none (hi : ((s.proc p).shared_mem i).in_use = false) : s.entry (p, i) = none :=
  if_neg (by simp [hi])

/-- There are at most 256 references. -/
theorem refcount_lt (h : ShmNames s made) (g : ShmIdx) : (s.shm g).refcount < 2 ^ 32 - 1 := by
  rw [h.count]
  exact (Finset.card_le_univ _).trans_lt (by simp [SHM_MAXNUM, NPROC])

/-- What leaves entries, names and counts alone; a slot may be claimed. -/
theorem congr (h : ShmNames s made) (hmem : ∀ q, (s'.proc q).shared_mem = (s.proc q).shared_mem)
    (hcid : ∀ q, (s'.proc q).container_id = (s.proc q).container_id)
    (hname : ∀ g, (s'.shm g).name = (s.shm g).name)
    (hslot : ∀ g, (s'.shm g).container_id = (s.shm g).container_id)
    (hcount : ∀ g, (s'.shm g).refcount = (s.shm g).refcount)
    (huse : ∀ g, (s.shm g).in_use = true → (s'.shm g).in_use = true) : ShmNames s' made := by
  have hentry : s'.entry = s.entry := by
    funext k
    simp only [Kernel.entry, hmem]
  constructor
  · intro g
    rw [hname, h.slot]
  · intro q i
    rw [hmem, hentry, h.own]
  · exact h.short
  · intro g n c hg
    rw [hslot, h.container_id hg]
  · intro g x hg
    exact huse g (h.in_use hg)
  · intro q i hi
    rw [hentry]
    exact h.points q i (hmem q ▸ hi)
  · intro q i g hk
    rw [hcid]
    exact h.refers (hentry ▸ hk)
  · exact h.inj
  · intro q i j g hi hj
    exact h.once (hentry ▸ hi) (hentry ▸ hj)
  · intro g
    rw [hcount, hentry, h.count]
  · intro g x hg
    rw [hcount]
    exact h.pos hg

end ShmNames

/-- A change of one entry. -/
theorem entry_update {x : Proc} {e : Shmem} (hproc : s'.proc = update s.proc p x)
    (hmem : x.shared_mem = update (s.proc p).shared_mem i e) :
    s'.entry = update s.entry (p, i) (if e.in_use then e.global_ptr else none) := by
  funext ⟨q, j⟩
  simp only [Kernel.entry, hproc]
  by_cases hq : q = p
  · subst hq
    rw [update_self, hmem]
    by_cases hj : j = i
    · subst hj
      rw [update_self, update_self]
    · rw [update_of_ne hj, update_of_ne (by simp [hj])]
      rfl
  · rw [update_of_ne hq, update_of_ne (by simp [hq])]
    rfl

/-- A step in which one process gets or gives up one entry, and one slot changes. -/
structure ShmStep (s s' : Kernel) (p : PIdx) (i g : ShmIdx) (e : Shmem) (x : SharedMem) : Prop where
  proc : ∃ y, s'.proc = update s.proc p y ∧
    y.shared_mem = update (s.proc p).shared_mem i e ∧ y.container_id = (s.proc p).container_id
  shm : s'.shm = update s.shm g x

namespace ShmStep

variable {e : Shmem} {x : SharedMem}

theorem entry (h : ShmStep s s' p i g e x) :
    s'.entry = update s.entry (p, i) (if e.in_use then e.global_ptr else none) := by
  obtain ⟨y, hproc, hmem, -⟩ := h.proc
  exact entry_update hproc hmem

theorem container_id (h : ShmStep s s' p i g e x) (q : PIdx) :
    (s'.proc q).container_id = (s.proc q).container_id := by
  obtain ⟨y, hproc, -, hcid⟩ := h.proc
  rw [hproc, update_apply]
  split_ifs with hq
  · rw [hcid, hq]
  · rfl

theorem shared_mem (h : ShmStep s s' p i g e x) (q : PIdx) (j : ShmIdx) :
    (s'.proc q).shared_mem j = if (q, j) = (p, i) then e else (s.proc q).shared_mem j := by
  obtain ⟨y, hproc, hmem, -⟩ := h.proc
  rw [hproc]
  by_cases hq : q = p
  · subst hq
    rw [update_self, hmem, update_apply]
    simp
  · rw [update_of_ne hq, if_neg (by simp [hq])]

end ShmStep

namespace ShmNames

section Attach

variable {n : Bytes} {c : ℕ} {e : Shmem} (hold : ∀ y, made g = some y → y = (n, c))

include hold

/-- What is on record stays so. -/
theorem attach_made {g' : ShmIdx} {y : Bytes × ℕ} (hg' : made g' = some y) :
    update made g (some (n, c)) g' = some y := by
  rw [update_apply]
  split_ifs with heq
  · rw [hold y (heq ▸ hg')]
  · exact hg'

variable (h : ShmNames s made) (hentry : s'.entry = update s.entry (p, i) (some g))

include h hentry

theorem attach_own (hename : e.name = padded n) {q : PIdx} {j : ShmIdx}
    (hmem : (s'.proc q).shared_mem j = if (q, j) = (p, i) then e else (s.proc q).shared_mem j) :
    ((s'.proc q).shared_mem j).name = padded
    (nameOf ((s'.entry (q, j)).bind (update made g (some (n, c))))) := by
  rw [hmem, hentry, update_apply]
  split_ifs
  · rw [hename, Option.bind_some, update_self]
    rfl
  · rw [h.own]
    cases hg' : s.entry (q, j) with
    | none => rfl
    | some g' =>
      obtain ⟨m, hm⟩ := h.refers hg'
      rw [Option.bind_some, Option.bind_some, hm, attach_made hold hm]

theorem attach_refers (hc : (s.proc p).container_id = c) {q : PIdx} {j g' : ShmIdx}
    (hk : s'.entry (q, j) = some g') :
    ∃ m, update made g (some (n, c)) g' = some (m, (s.proc q).container_id) := by
  rw [hentry, update_apply] at hk
  split_ifs at hk with heq
  · obtain ⟨rfl, rfl⟩ := Prod.mk.inj heq
    obtain rfl := Option.some.inj hk
    exact ⟨n, hc ▸ update_self ..⟩
  · obtain ⟨m, hm⟩ := h.refers hk
    exact ⟨m, attach_made hold hm⟩

omit hold in
theorem attach_once (hnew : ∀ j, s.entry (p, j) ≠ some g) {q : PIdx} {j1 j2 g' : ShmIdx}
    (h1 : s'.entry (q, j1) = some g') (h2 : s'.entry (q, j2) = some g') : j1 = j2 := by
  rw [hentry, update_apply] at h1 h2
  split_ifs at h1 h2 with heq1 heq2 heq2
  · rw [(Prod.mk.inj heq1).2, (Prod.mk.inj heq2).2]
  · obtain rfl := Option.some.inj h1
    exact absurd ((Prod.mk.inj heq1).1 ▸ h2) (hnew j2)
  · obtain rfl := Option.some.inj h2
    exact absurd ((Prod.mk.inj heq2).1 ▸ h1) (hnew j1)
  · exact h.once h1 h2

end Attach

/-- The process `p` gets the entry `i` for the slot `g`, which was created under the name or is
created now. -/
theorem attach {n : Bytes} {e : Shmem} {x : SharedMem} (h : ShmNames s made)
    (hstep : ShmStep s s' p i g e x) (hshort : ShortName n)
    (hsame : ∀ g', made g' = some (n, (s.proc p).container_id) → g' = g)
    (hold : ∀ y, made g = some y → y = (n, (s.proc p).container_id))
    (hi : ((s.proc p).shared_mem i).in_use = false) (hnew : ∀ j, s.entry (p, j) ≠ some g)
    (he : e.in_use = true ∧ e.global_ptr = some g ∧ e.name = padded n)
    (hx : x.in_use = true ∧ x.name = padded n ∧ x.container_id = (s.proc p).container_id ∧
      x.refcount = (s.shm g).refcount + 1) :
    ShmNames s' (update made g (some (n, (s.proc p).container_id))) := by
  obtain ⟨heuse, hptr, hename⟩ := he
  obtain ⟨hxuse, hxname, hxcid, hxcount⟩ := hx
  have hentry : s'.entry = update s.entry (p, i) (some g) := by
    rw [hstep.entry, heuse, hptr]
    rfl
  constructor
  case slot =>
    intro g'
    rw [hstep.shm, update_apply, update_apply]
    split_ifs
    · exact hxname
    · exact h.slot g'
  case own => exact fun q j => attach_own hold h hentry hename (hstep.shared_mem q j)
  case short =>
    intro g' m c hg'
    obtain ⟨-, hy⟩ | ⟨-, hg'⟩ := update_eq_some_iff.mp hg'
    · cases hy
      exact hshort
    · exact h.short hg'
  case container_id =>
    intro g' m c hg'
    rw [hstep.shm, update_apply]
    obtain ⟨heq, hy⟩ | ⟨hne, hg'⟩ := update_eq_some_iff.mp hg'
    · cases hy
      rw [if_pos heq, hxcid]
    · rw [if_neg hne, h.container_id hg']
  case in_use =>
    intro g' y hg'
    rw [hstep.shm, update_apply]
    obtain ⟨heq, -⟩ | ⟨hne, hg'⟩ := update_eq_some_iff.mp hg'
    · rw [if_pos heq, hxuse]
    · rw [if_neg hne, h.in_use hg']
  case points =>
    intro q j hj
    rw [hstep.shared_mem] at hj
    rw [hentry, update_apply]
    split_ifs at hj ⊢
    · exact ⟨g, rfl⟩
    · exact h.points q j hj
  case refers =>
    intro q j g' hk
    rw [hstep.container_id]
    exact attach_refers hold h hentry rfl hk
  case inj =>
    intro g1 g2 y h1 h2
    obtain ⟨heq1, hy1⟩ | ⟨hne1, h1⟩ := update_eq_some_iff.mp h1 <;>
      obtain ⟨heq2, hy2⟩ | ⟨hne2, h2⟩ := update_eq_some_iff.mp h2
    · rw [heq1, heq2]
    · exact absurd (hsame g2 (h2.trans hy1.symm)) hne2
    · exact absurd (hsame g1 (h1.trans hy2.symm)) hne1
    · exact h.inj h1 h2
  case once => exact attach_once h hentry hnew
  case count =>
    intro g'
    rw [hstep.shm, hentry, card_refs_some (entry_eq_none hi), update_apply]
    split_ifs with heq
    · rw [hxcount, heq, h.count]
    · rw [h.count, Nat.add_zero]
  case pos =>
    intro g' y hg'
    rw [hstep.shm, update_apply]
    obtain ⟨heq, -⟩ | ⟨hne, hg'⟩ := update_eq_some_iff.mp hg'
    · rw [if_pos heq, hxcount]
      omega
    · rw [if_neg hne]
      exact h.pos hg'

section Detach

variable {e : Shmem} {x : SharedMem} {o : Option (Bytes × ℕ)} (h : ShmNames s made)
  (hcount : x.refcount + 1 = (s.shm g).refcount)
  (hx : (o = none ∧ x.name = padded [] ∧ x.refcount = 0) ∨
    (o = made g ∧ x.name = (s.shm g).name ∧ x.in_use = (s.shm g).in_use ∧
      x.container_id = (s.shm g).container_id ∧ 0 < x.refcount))

include hx

/-- What is on record afterwards was on record before. -/
theorem detach_made {g' : ShmIdx} {y : Bytes × ℕ} (hg' : update made g o g' = some y) :
    made g' = some y := by
  obtain ⟨rfl, ho⟩ | ⟨-, hg'⟩ := update_eq_some_iff.mp hg'
  · obtain ⟨rfl, -, -⟩ | ⟨rfl, -⟩ := hx
    · cases ho
    · exact ho
  · exact hg'

include h

theorem detach_slot (hshm : s'.shm = update s.shm g x) {g' : ShmIdx} {y : Bytes × ℕ}
    (hg' : update made g o g' = some y) : (s'.shm g').in_use = (s.shm g').in_use ∧
      (s'.shm g').container_id = (s.shm g').container_id ∧ 0 < (s'.shm g').refcount := by
  rw [hshm, update_apply]
  split_ifs with heq
  · subst heq
    rw [update_self] at hg'
    obtain ⟨rfl, -, -⟩ | ⟨-, -, huse, hcid, hpos⟩ := hx
    · cases hg'
    · exact ⟨huse, hcid, hpos⟩
  · exact ⟨rfl, rfl, h.pos (detach_made hx hg')⟩

include hcount

/-- Where a reference is left, the record is. -/
theorem detach_left (hi : s.entry (p, i) = some g) (hentry : s'.entry = update s.entry (p, i) none)
    {k : PIdx × ShmIdx} {g' : ShmIdx} (hk : s'.entry k = some g') :
    s.entry k = some g' ∧ update made g o g' = made g' := by
  have hk' := hk
  rw [hentry, update_apply] at hk'
  split_ifs at hk' with hne
  refine ⟨hk', ?_⟩
  rw [update_apply]
  split_ifs with heq
  · subst heq
    obtain ⟨-, -, hzero⟩ | ⟨ho, -⟩ := hx
    · have hpos : 0 < (refs s'.entry g').card := card_refs_pos hk
      have htotal := card_refs_none hi g'
      rw [← hentry, if_pos rfl, ← h.count] at htotal
      omega
    · exact ho
  · rfl

/-- The process `p` gives up the entry `i`, which points to the slot `g`; the slot keeps its record
`o` unless this was the last reference. -/
theorem detach (hstep : ShmStep s s' p i g e x) (hi : s.entry (p, i) = some g)
    (he : e.in_use = false ∧ e.name = padded []) : ShmNames s' (update made g o) := by
  obtain ⟨heuse, hename⟩ := he
  have hentry : s'.entry = update s.entry (p, i) none := by
    rw [hstep.entry, heuse]
    rfl
  have hleft : ∀ {k g'}, s'.entry k = some g' → s.entry k = some g' ∧
      update made g o g' = made g' :=
    detach_left h hcount hx hi hentry
  constructor
  case slot =>
    intro g'
    rw [hstep.shm, update_apply, update_apply]
    split_ifs with heq
    · subst heq
      obtain ⟨rfl, hname, -⟩ | ⟨rfl, hname, -⟩ := hx
      · exact hname
      · rw [hname, h.slot]
    · exact h.slot g'
  case own =>
    intro q j
    rw [hstep.shared_mem]
    split_ifs with heq
    · rw [hename, heq, hentry, update_self]
      rfl
    · have hsame : s'.entry (q, j) = s.entry (q, j) := by rw [hentry, update_of_ne heq]
      rw [h.own, ← hsame]
      cases hk : s'.entry (q, j) with
      | none => rfl
      | some g' => rw [Option.bind_some, Option.bind_some, (hleft hk).2]
  case short => exact fun hg' => h.short (detach_made hx hg')
  case container_id =>
    intro g' m c hg'
    rw [(detach_slot h hx hstep.shm hg').2.1, h.container_id (detach_made hx hg')]
  case in_use =>
    intro g' y hg'
    rw [(detach_slot h hx hstep.shm hg').1, h.in_use (detach_made hx hg')]
  case points =>
    intro q j hj
    rw [hstep.shared_mem] at hj
    split_ifs at hj with heq
    · exact absurd (heuse.symm.trans hj) nofun
    · rw [hentry, update_of_ne heq]
      exact h.points q j hj
  case refers =>
    intro q j g' hk
    rw [hstep.container_id, (hleft hk).2]
    exact h.refers (hleft hk).1
  case inj => exact fun h1 h2 => h.inj (detach_made hx h1) (detach_made hx h2)
  case once => exact fun h1 h2 => h.once (hleft h1).1 (hleft h2).1
  case count =>
    intro g'
    have htotal := card_refs_none hi g'
    rw [← hentry, ← h.count] at htotal
    rw [hstep.shm, update_apply]
    split_ifs at htotal ⊢ with heq
    · subst heq
      omega
    · omega
  case pos => exact fun hg' => (detach_slot h hx hstep.shm hg').2.2

end Detach

end ShmNames

end Names

/-! ## The calls -/

/-- A call on shared memory. -/
inductive ShmCall
  | get (name : Bytes)
  | rem (name : Bytes)

namespace ShmCall

/-- The name of the call. -/
def name : ShmCall → Bytes
  | get name | rem name => name

/-- Make the call for the process `p`. -/
def run (s : Kernel) (p : PIdx) : ShmCall → Res (Int × Kernel)
  | get name => shmGet s p name
  | rem name => shmRem s p name

end ShmCall

/-- The record after a step: a slot that a successful call has put in use was created with `x`. -/
def ShmMade.next (made : ShmMade) (s s' : Kernel) (r : Int) (x : Bytes × ℕ) : ShmMade := fun g =>
  if (s'.shm g).in_use then
    if (s.shm g).in_use then made g else if r = -1 then none else some x
  else none

/-- Shared memory has not been used. -/
structure NoShm (s : Kernel) : Prop where
  slot : ∀ g, (s.shm g).in_use = false ∧ (s.shm g).name = padded [] ∧ (s.shm g).refcount = 0
  entry : ∀ q i, ((s.proc q).shared_mem i).in_use = false ∧
    ((s.proc q).shared_mem i).name = padded []

/-- `shm_get` and `shm_rem` one at a time, with names that are not empty and shorter than 16
bytes. -/
def shmMachine : Machine (Kernel × ShmMade) (PIdx × ShmCall) where
  init x := NoShm x.1 ∧ x.2 = fun _ => none
  step x a :=
    if x.1.canRun a.1 ∧ 0 < strlen a.2.name ∧ strlen a.2.name < 16 then
      match a.2.run x.1 a.1 with
      | .ok (r, s') => some (s', x.2.next x.1 s' r (cstr a.2.name, (x.1.proc a.1).container_id))
      | .error _ => none
    else none

/-- The entry is in use, has the name and points to the slot. -/
def Kernel.HoldsPage (s : Kernel) (p : PIdx) (i g : ShmIdx) (n : Bytes) : Prop :=
  s.entry (p, i) = some g ∧ cstr ((s.proc p).shared_mem i).name = n

/-- A page can be mapped behind the image of the process: it is in the user half, nothing is mapped
there, and there is a page table for it or a free page to make one of. -/
def Kernel.HasRoom (s : Kernel) (p : PIdx) (d : Pgdir) : Prop :=
  pages (s.proc p).sz < NUSERPAGES ∧ d.pte (pages (s.proc p).sz) = none ∧
    (d.tab (pages (s.proc p).sz / NPTENTRIES) ≠ none ∨ s.km.free ≠ [])

/-- `shm_get` does not take the name for null, since other bytes lie at the user address 0, and has
room for a page. -/
def ShmReady (s : Kernel) (p : PIdx) : ShmCall → Prop
  | .get name => ∃ d ∈ (s.proc p).pgdir,
    (∃ cmp ∈ (strncmpUser d s.km.mem name 0 (strlen name)).toOption, cmp ≠ 0) ∧ s.HasRoom p d
  | .rem _ => True

/-- The call does what it is to do for this very name. `shm_get` finds the name among the caller's
entries only if the caller holds a page with it; it attaches to the slot that was created under the
name in the caller's container, if there is one that the caller does not hold; and when it succeeds,
the slot of the new entry is that one or was not in use. `shm_rem` releases the slot of the caller's
entry with the name, if any, and changes no other. -/
def NamedExactly (s : Kernel) (made : ShmMade) (p : PIdx) : ShmCall → Prop
  | .get name =>
    (s.findShmem p name ≠ none → ∃ i g, s.HoldsPage p i g (cstr name)) ∧
    (∀ g, (s.shm g).in_use = true → made g = some (cstr name, (s.proc p).container_id) →
      (∀ i, ¬ s.HoldsPage p i g (cstr name)) →
        ∃ r s' i, shmGet s p name = .ok (r, s') ∧ r ≠ -1 ∧ s'.HoldsPage p i g (cstr name)) ∧
    ∀ r s', shmGet s p name = .ok (r, s') → r ≠ -1 →
      ∃ i g, s.entry (p, i) = none ∧ s'.HoldsPage p i g (cstr name) ∧
        ((s.shm g).in_use = true ↔
          ∃ g', (s.shm g').in_use = true ∧ made g' = some (cstr name, (s.proc p).container_id)) ∧
        ∀ g', (s.shm g').in_use = true → made g' = some (cstr name, (s.proc p).container_id) →
        g' = g
  | .rem name =>
    ∀ r s', shmRem s p name = .ok (r, s') →
      (s' = s ∧ ∀ i g, ¬ s.HoldsPage p i g (cstr name)) ∨
      ∃ i g, s.HoldsPage p i g (cstr name) ∧ s'.entry (p, i) = none ∧
        (s'.shm g).refcount + 1 = (s.shm g).refcount ∧ ∀ g', g' ≠ g → s'.shm g' = s.shm g'

section Steps

variable {s s' : Kernel} {made : ShmMade} {p : PIdx} {name : Bytes} {i g : ShmIdx}
  {d : Pgdir} {r : Int}

namespace ShmNames

theorem of_noShm (h : NoShm s) : ShmNames s fun _ => none := by
  have hentry : ∀ k, s.entry k = none := fun k => entry_eq_none (h.entry k.1 k.2).1
  constructor
  · intro g
    exact (h.slot g).2.1
  · intro q i
    rw [hentry]
    exact (h.entry q i).2
  · exact nofun
  · exact nofun
  · exact nofun
  · intro q i hi
    exact absurd ((h.entry q i).1.symm.trans hi) nofun
  · intro q i g hk
    exact absurd ((hentry _).symm.trans hk) nofun
  · exact nofun
  · intro q i j g hk
    exact absurd ((hentry _).symm.trans hk) nofun
  · intro g
    rw [(h.slot g).2.2, eq_comm, card_refs_eq_zero]
    intro k hk
    exact absurd ((hentry _).symm.trans hk) nofun
  · exact nofun

/-- The record when the slots in use stay the same. -/
theorem next_self (h : ShmNames s made) (huse : ∀ g, (s'.shm g).in_use = (s.shm g).in_use)
    (x : Bytes × ℕ) : made.next s s' r x = made := by
  funext g
  unfold ShmMade.next
  rw [huse]
  split_ifs with hg
  · rfl
  · rw [h.made_eq_none (by simpa using hg)]

/-- The record when one slot changes. -/
theorem next_update (h : ShmNames s made) {y : SharedMem} (hshm : s'.shm = update s.shm g y)
    (x : Bytes × ℕ) : made.next s s' r x = update made g
      (if y.in_use then if (s.shm g).in_use then made g else if r = -1 then none else some x
        else none) := by
  funext g'
  unfold ShmMade.next
  rw [hshm, update_apply, update_apply]
  by_cases heq : g' = g
  · rw [if_pos heq, if_pos heq, heq]
  · rw [if_neg heq, if_neg heq]
    split_ifs with hg
    · rfl
    · rw [h.made_eq_none (by simpa using hg)]

/-- An entry is free when a slot is there to attach to: were all of them in use, the caller would
have an entry for each of the slots. -/
theorem exists_freeShmem (h : ShmNames s made) (hname : cstr name ≠ [])
    (hexact : ShmExact s made p name) (hheld : s.findShmem p name = none)
    (hg : s.findShm name (s.proc p).container_id = some g ∨ s.freeShm = some g) :
    ∃ i, s.freeShmem p = some i := by
  apply freeShmem_of_exists
  by_contra hall
  have huse : ∀ i, ∃ g, s.entry (p, i) = some g := by
    intro i
    apply h.points
    by_contra hi
    exact hall ⟨i, by simpa using hi⟩
  choose f hf using huse
  have hinj : Injective f := fun i j hij => h.once (hf i) (hij ▸ hf j)
  obtain ⟨i, hi⟩ := Finite.injective_iff_surjective.mp hinj g
  obtain ⟨m, hm⟩ := h.refers (hf i)
  rw [hi] at hm
  rcases hg with hg | hg
  · have hfound := (h.findShmem_iff hname hexact).mpr
      ⟨g, hi ▸ hf i, (h.findShm_iff hname hexact).mp hg⟩
    rw [hheld] at hfound
    cases hfound
  · rw [h.made_eq_none (freeShm_eq_some hg)] at hm
    cases hm

end ShmNames

/-- The end of `shm_get` with a free entry, as a step. -/
theorem shmAttach_step {m : Kmem} {s0 : Kernel} {x : SharedMem}
    (h : shmAttach (s0.setVm p d m) p d name (some i) g = .ok (r, s')) (hproc : s0.proc = s.proc)
    (hshm : s0.shm = update s.shm g x) :
    r ≠ -1 ∧ ShmStep s s' p i g
      { in_use := true, name := strncpy ((s.proc p).shared_mem i).name name (strlen name),
        va := (s.proc p).sz, global_ptr := some g } (x.joined (s.proc p).container_id) := by
  have hr := shmAttach_eq_ok h
  have hs' := shmAttach_cases h
  rw [hproc] at hs'
  refine ⟨by omega, ⟨(s.proc p).attached d name i g, ?_, Proc.attached_shared_mem .., ?_⟩, ?_⟩
  · rw [hs', ← hproc]
    rfl
  · rw [Proc.attached]
  · rw [hs']
    show update s0.shm g _ = _
    rw [hshm, update_idem, update_self]

/-- A removal, as a step. The slot is given back with its last reference. -/
theorem ShmRemoved.step (h : ShmRemoved s p d g i s') (hpos : 0 < (s.shm g).refcount)
    (hlt : (s.shm g).refcount < 2 ^ 32 - 1) :
    ∃ x, ShmStep s s' p i g
        { (s.proc p).shared_mem i with
          in_use := false, name := clearName ((s.proc p).shared_mem i).name, va := UINT_MAX } x ∧
      x.refcount + 1 = (s.shm g).refcount ∧
      ((x.in_use = false ∧ x.name = clearName (s.shm g).name ∧ x.refcount = 0) ∨
        (x.name = (s.shm g).name ∧ x.in_use = (s.shm g).in_use ∧
          x.container_id = (s.shm g).container_id ∧ 0 < x.refcount)) := by
  have hproc := Proc.detached_shared_mem (s.proc p) d i
  have hcid := Proc.detached_container_id (s.proc p) d i
  cases h with
  | last e m hcount =>
    refine ⟨(s.shm g).dealloc, ⟨⟨_, rfl, hproc, hcid⟩, rfl⟩, ?_, .inl ⟨rfl, rfl, rfl⟩⟩
    rw [hcount]
    rfl
  | dropped hcount =>
    have hdec : udec (s.shm g).refcount + 1 = (s.shm g).refcount := by
      rw [udec_of_pos hpos (by omega)]
      omega
    exact ⟨_, ⟨⟨_, rfl, hproc, hcid⟩, rfl⟩, hdec, .inr ⟨rfl, rfl, rfl, by dsimp only; omega⟩⟩

namespace ShmNames

theorem shortName (hpos : 0 < strlen name) (hlt : strlen name < 16) : ShortName (cstr name) where
  cstr := cstr_cstr name
  pos := List.length_pos_iff.mp hpos
  lt := hlt

/-- The new entry of `shm_get`, for a slot that is on record with the name or not on record. -/
theorem attached {x : SharedMem} (h : ShmNames s made) (hshort : ShortName (cstr name))
    (hexact : ShmExact s made p name) (hheld : s.findShmem p name = none)
    (hsame : ∀ g', made g' = some (cstr name, (s.proc p).container_id) → g' = g)
    (hold : ∀ y, made g = some y → y = (cstr name, (s.proc p).container_id))
    (hi : s.freeShmem p = some i)
    (hx : x.in_use = true ∧ x.name = padded (cstr name) ∧ x.refcount = (s.shm g).refcount)
    (hstep : ShmStep s s' p i g
      { in_use := true, name := strncpy ((s.proc p).shared_mem i).name name (strlen name),
        va := (s.proc p).sz, global_ptr := some g } (x.joined (s.proc p).container_id)) :
    ShmNames s' (update made g (some (cstr name, (s.proc p).container_id))) ∧
      s.entry (p, i) = none ∧ s'.HoldsPage p i g (cstr name) := by
  have hnone : s.entry (p, i) = none := entry_eq_none (freeShmem_eq_some hi)
  have hempty : ((s.proc p).shared_mem i).name = padded [] := by
    rw [h.own, hnone]
    rfl
  have hnew : ∀ j, s.entry (p, j) ≠ some g := by
    intro j hj
    obtain ⟨m, hm⟩ := h.refers hj
    have hfound := (h.findShmem_iff hshort.pos hexact).mpr ⟨g, hj, hold _ hm ▸ hm⟩
    rw [hheld] at hfound
    cases hfound
  have hcount : uinc x.refcount = (s.shm g).refcount + 1 := by
    have hlt := h.refcount_lt g
    rw [hx.2.2, uinc_of_lt (by omega)]
  rw [hempty, strncpy_padded] at hstep
  refine ⟨h.attach hstep hshort hsame hold (freeShmem_eq_some hi) hnew ⟨rfl, rfl, rfl⟩
    ⟨hx.1, hx.2.1, rfl, hcount⟩, hnone, ?_, ?_⟩
  · rw [hstep.entry, update_self]
    rfl
  · rw [hstep.shared_mem, if_pos rfl]
    exact cstr_padded hshort.cstr

/-- `shm_get` keeps the record, and finds what is on record with the name. -/
theorem shmGet (h : ShmNames s made) (hshort : ShortName (cstr name))
    (hexact : ShmExact s made p name) (hrun : Dockv6.shmGet s p name = .ok (r, s')) :
    ShmNames s' (made.next s s' r (cstr name, (s.proc p).container_id)) ∧
    (r ≠ -1 → ∃ i g, s.entry (p, i) = none ∧ s'.HoldsPage p i g (cstr name) ∧
      ((s.shm g).in_use = true ↔
        ∃ g', (s.shm g').in_use = true ∧ made g' = some (cstr name, (s.proc p).container_id)) ∧
      ∀ g', (s.shm g').in_use = true → made g' = some (cstr name, (s.proc p).container_id) →
      g' = g) := by
  obtain ⟨d, -, hout⟩ := shmGet_outcome hrun
  cases hout with
  | refused =>
    rw [h.next_self (fun _ => rfl)]
    exact ⟨h, fun hr => absurd rfl hr⟩
  | noTable g d' m =>
    have hnext : made.next s (s.setVm p d' m) (-1) (cstr name, (s.proc p).container_id) = made :=
      h.next_self (fun _ => rfl) _
    rw [hnext]
    refine ⟨h.congr (fun q => ?_) (fun q => ?_) (fun _ => rfl) (fun _ => rfl)
      (fun _ => rfl) fun _ => id, fun hr => absurd rfl hr⟩
    · exact setProc_field (x := { s.proc p with pgdir := some d' }) Proc.shared_mem rfl q
    · exact setProc_field (x := { s.proc p with pgdir := some d' }) Proc.container_id rfl q
  | noPage g =>
    have hnext : made.next s (s.setShm g { s.shm g with in_use := true }) (-1)
        (cstr name, (s.proc p).container_id) = made := by
      rw [h.next_update rfl]
      rw [if_pos rfl, if_pos rfl]
      split_ifs with hg
      · exact update_eq_self g made
      · rw [← h.made_eq_none (by simpa using hg)]
        exact update_eq_self g made
    rw [hnext]
    refine ⟨h.congr (fun _ => rfl) (fun _ => rfl) (fun g' => ?_) (fun g' => ?_)
      (fun g' => ?_) fun g' hg' => ?_, fun hr => absurd rfl hr⟩
    all_goals
      rw [setShm_shm]
      split_ifs with heq
      · simp [heq]
      · first | rfl | exact hg'
  | joined g d' m _ _ hask hg _ hend =>
    have hmade := (h.findShm_iff hshort.pos hexact).mp hg
    obtain ⟨i, hi⟩ := h.exists_freeShmem hshort.pos hexact hask.2 (.inl hg)
    rw [hi] at hend
    obtain ⟨hr, hstep⟩ := shmAttach_step hend rfl (update_eq_self g s.shm).symm
    have hsame : ∀ g', made g' = some (cstr name, (s.proc p).container_id) → g' = g :=
      fun g' hg' => h.inj hg' hmade
    have hname : (s.shm g).name = padded (cstr name) := by
      rw [h.slot, hmade]
      rfl
    obtain ⟨hnames, hfree, hholds⟩ := h.attached hshort hexact hask.2 hsame
      (fun y hy => Option.some.inj (hy.symm.trans hmade)) hi ⟨h.in_use hmade, hname, rfl⟩ hstep
    have huse : ((s.shm g).joined (s.proc p).container_id).in_use = true := h.in_use hmade
    rw [h.next_update hstep.shm, if_pos huse, if_pos (h.in_use hmade), hmade]
    refine ⟨hnames, fun _ => ⟨i, g, hfree, hholds, ?_, fun g' _ => hsame g'⟩⟩
    exact ⟨fun hin => ⟨g, hin, hmade⟩, fun _ => h.in_use hmade⟩
  | made g page free d' m _ _ hask hg hslot _ _ _ hend =>
    have hfree : (s.shm g).in_use = false := freeShm_eq_some hslot
    have hmade := h.made_eq_none hfree
    obtain ⟨i, hi⟩ := h.exists_freeShmem hshort.pos hexact hask.2 (.inr hslot)
    rw [hi] at hend
    obtain ⟨hr, hstep⟩ := shmAttach_step (s := s) hend rfl rfl
    have hnobody : ∀ g', made g' ≠ some (cstr name, (s.proc p).container_id) := by
      intro g' hg'
      have hfound := (h.findShm_iff hshort.pos hexact).mpr hg'
      rw [hg] at hfound
      cases hfound
    have hname : ((s.shm g).made name page).name = padded (cstr name) := by
      rw [SharedMem.made, h.slot, hmade]
      exact strncpy_padded name
    obtain ⟨hnames, hnone, hholds⟩ := h.attached hshort hexact hask.2
      (fun g' hg' => absurd hg' (hnobody g')) (fun y hy => by simp [hmade] at hy) hi
      ⟨rfl, hname, rfl⟩ hstep
    rw [h.next_update hstep.shm, if_pos (by rfl), if_neg (by simp [hfree]), if_neg hr]
    refine ⟨hnames, fun _ => ⟨i, g, hnone, hholds, ?_, fun g' _ hg' => absurd hg' (hnobody g')⟩⟩
    rw [hfree]
    refine ⟨by simp, ?_⟩
    rintro ⟨g', -, hg'⟩
    exact absurd hg' (hnobody g')

/-- An entry with the name is one that the search finds. -/
theorem findShmem_of_holds (h : ShmNames s made) (hname : cstr name ≠ [])
    (hexact : ShmExact s made p name) (hi : s.HoldsPage p i g (cstr name)) :
    s.findShmem p name = some i ∧ made g = some (cstr name, (s.proc p).container_id) := by
  obtain ⟨hentry, hstored⟩ := hi
  obtain ⟨m, hm⟩ := h.refers hentry
  rw [h.own, cstr_padded (h.cstr_nameOf_bind _), hentry, Option.bind_some, hm] at hstored
  obtain rfl : m = cstr name := hstored
  exact ⟨(h.findShmem_iff hname hexact).mpr ⟨g, hentry, hm⟩, hm⟩

theorem holds_of_entry (h : ShmNames s made) (hi : s.entry (p, i) = some g)
    (hg : made g = some (cstr name, (s.proc p).container_id)) : s.HoldsPage p i g (cstr name) := by
  refine ⟨hi, ?_⟩
  rw [h.own, cstr_padded (h.cstr_nameOf_bind _), hi, Option.bind_some, hg]
  rfl

/-- `shm_get` succeeds for a page that is there and that the caller does not hold. -/
theorem shmGet_succeeds (h : ShmNames s made) (hshort : ShortName (cstr name))
    (hexact : ShmExact s made p name) (hready : ShmReady s p (.get name))
    (hg : made g = some (cstr name, (s.proc p).container_id))
    (hnot : ∀ i, ¬ s.HoldsPage p i g (cstr name)) :
    ∃ r s', Dockv6.shmGet s p name = .ok (r, s') ∧ r ≠ -1 := by
  obtain ⟨d, hd, ⟨cmp, hcmp, hne⟩, hv, hpte, hroom⟩ := hready
  have hfound := (h.findShm_iff hshort.pos hexact).mpr hg
  have hheld : s.findShmem p name = none := by
    rw [Option.eq_none_iff_forall_ne_some]
    intro i hi
    obtain ⟨g', hentry, hg'⟩ := (h.findShmem_iff hshort.pos hexact).mp hi
    rw [h.inj hg' hg] at hentry
    exact hnot i (h.holds_of_entry hentry hg)
  obtain ⟨i, hi⟩ := h.exists_freeShmem hshort.pos hexact hheld (.inl hfound)
  obtain ⟨d', m', hmap⟩ : ∃ d' m', mapPage d s.km _ (s.shm g).pa (PTE_W ||| PTE_U) =
    .ok (true, d', m') := mapPage_room hv hpte hroom
  have hlen : strlen name ≤ 16 := hshort.lt.le
  obtain ⟨⟨r, s'⟩, hend⟩ : ∃ x, shmAttach (s.setVm p d' m') p d' name (some i) g = .ok x :=
    ⟨_, bind_eq_ok.mpr ⟨_, if_pos hlen, rfl⟩⟩
  have hr := shmAttach_eq_ok hend
  refine ⟨r, s', ?_, by omega⟩
  unfold Dockv6.shmGet
  rw [Option.mem_def.mp hd, hheld, hfound, hi]
  refine bind_eq_ok.mpr ⟨cmp, toOption_eq_some.mp hcmp, ?_⟩
  rw [if_neg hne, if_neg (by simp)]
  exact bind_eq_ok.mpr ⟨(true, d', m'), by rw [mappages_page, hmap], hend⟩

/-- `shm_rem` keeps the record, and releases what is on record with the name. -/
theorem shmRem (h : ShmNames s made) (hshort : ShortName (cstr name))
    (hexact : ShmExact s made p name) (hrun : Dockv6.shmRem s p name = .ok (r, s')) :
    ShmNames s' (made.next s s' r (cstr name, (s.proc p).container_id)) ∧
    ((s' = s ∧ ∀ i g, ¬ s.HoldsPage p i g (cstr name)) ∨
      ∃ i g, s.HoldsPage p i g (cstr name) ∧ s'.entry (p, i) = none ∧
        (s'.shm g).refcount + 1 = (s.shm g).refcount ∧ ∀ g', g' ≠ g → s'.shm g' = s.shm g') := by
  obtain ⟨rfl, hnone⟩ | ⟨g, i, d, hg, hi, -, -, hrem⟩ := shmRem_cases hrun
  · rw [h.next_self (fun _ => rfl)]
    refine ⟨h, .inl ⟨rfl, fun i g hholds => ?_⟩⟩
    obtain ⟨hi, hg⟩ := h.findShmem_of_holds hshort.pos hexact hholds
    rcases hnone with hnone | hnone
    · rw [(h.findShm_iff hshort.pos hexact).mpr hg] at hnone
      cases hnone
    · rw [hi] at hnone
      cases hnone
  · have hmade := (h.findShm_iff hshort.pos hexact).mp hg
    obtain ⟨g', hentry, hg'⟩ := (h.findShmem_iff hshort.pos hexact).mp hi
    obtain rfl := h.inj hmade hg'
    have hholds := h.holds_of_entry hentry hmade
    have hcleared : clearName ((s.proc p).shared_mem i).name = padded [] := by
      rw [h.own, hentry, Option.bind_some, hmade]
      exact clearName_padded hshort.cstr hshort.lt
    have hunnamed : clearName (s.shm g).name = padded [] := by
      rw [h.slot, hmade]
      exact clearName_padded hshort.cstr hshort.lt
    obtain ⟨x, hstep, hcount, hx⟩ := hrem.step (h.pos hmade) (h.refcount_lt g)
    refine ⟨?_, .inr ⟨i, g, hholds, ?_, ?_, fun g' hne => ?_⟩⟩
    · rw [h.next_update hstep.shm]
      refine h.detach hcount ?_ hstep hentry ⟨rfl, hcleared⟩
      rcases hx with ⟨huse, hname, hzero⟩ | ⟨hname, huse, hcid, hleft⟩
      · exact .inl ⟨by rw [huse]; rfl, hname.trans hunnamed, hzero⟩
      · refine .inr ⟨?_, hname, huse, hcid, hleft⟩
        rw [huse, h.in_use hmade]
        rfl
    · rw [hstep.entry, update_self]
      rfl
    · rw [hstep.shm, update_self]
      exact hcount
    · rw [hstep.shm, update_of_ne hne]

end ShmNames

/-! ## Runs -/

theorem shmMachine_step {x y : Kernel × ShmMade} {c : ShmCall}
    (h : shmMachine.step x (p, c) = some y) :
    ShortName (cstr c.name) ∧ ∃ r s', c.run x.1 p = .ok (r, s') ∧
      y = (s', x.2.next x.1 s' r (cstr c.name, (x.1.proc p).container_id)) := by
  have hstep : (if x.1.canRun p ∧ 0 < strlen c.name ∧ strlen c.name < 16 then
      match c.run x.1 p with
      | .ok (r, s') => some (s', x.2.next x.1 s' r (cstr c.name, (x.1.proc p).container_id))
      | .error _ => none
    else none) = some y := h
  split_ifs at hstep with hcall
  refine ⟨ShmNames.shortName hcall.2.1 hcall.2.2, ?_⟩
  split at hstep
  · rename_i r s' hrun
    exact ⟨r, s', hrun, (Option.some.inj hstep).symm⟩
  · cases hstep

theorem reach_shmNames {x : Kernel × ShmMade}
    (h : shmMachine.Reach (fun x a => ShmExact x.1 x.2 a.1 a.2.name) x) : ShmNames x.1 x.2 := by
  refine h.invariant (I := fun x => ShmNames x.1 x.2) (fun x hx => ?_) fun x y a hinv hexact hst =>
    ?_
  · rw [hx.2]
    exact .of_noShm hx.1
  · obtain ⟨p, c⟩ := a
    obtain ⟨hshort, r, s', hrun, rfl⟩ := shmMachine_step hst
    cases c with
    | get name => exact (hinv.shmGet hshort hexact hrun).1
    | rem name => exact (hinv.shmRem hshort hexact hrun).1

/-- **Shared pages are found by their very name, without prefixes**: after every run in which no
page of a caller's container has a longer name that starts with the one that it asks for, by a call
that has room for a page and does not find its name at the user address 0. -/
theorem shm_naming {x : Kernel × ShmMade} {c : ShmCall}
    (h : shmMachine.Reach (fun x a => ShmExact x.1 x.2 a.1 a.2.name) x)
    (hpos : 0 < strlen c.name) (hlt : strlen c.name < 16) (hexact : ShmExact x.1 x.2 p c.name)
    (hready : ShmReady x.1 p c) : NamedExactly x.1 x.2 p c := by
  have hinv := reach_shmNames h
  have hshort := ShmNames.shortName hpos hlt
  cases c with
  | get name =>
    refine ⟨fun hheld => ?_, fun g huse hg hnot => ?_, fun r s' hrun =>
      (hinv.shmGet hshort hexact hrun).2⟩
    · obtain ⟨i, hi⟩ := Option.ne_none_iff_exists'.mp hheld
      obtain ⟨g, hentry, hg⟩ := (hinv.findShmem_iff hshort.pos hexact).mp hi
      exact ⟨i, g, hinv.holds_of_entry hentry hg⟩
    · obtain ⟨r, s', hrun, hr⟩ := hinv.shmGet_succeeds hshort hexact hready hg hnot
      obtain ⟨i, g', -, hholds, -, honly⟩ := (hinv.shmGet hshort hexact hrun).2 hr
      obtain rfl := honly g huse hg
      exact ⟨r, s', i, hrun, hr, hholds⟩
  | rem name => exact fun r s' hrun => (hinv.shmRem hshort hexact hrun).2

theorem boot_noShm (h : Boot s) : NoShm s := by
  obtain ⟨b, code, p, page, free, mem, d0, d, m0, m, cwd, q, fs, -, -, -, -, -, rfl⟩ := boot_cases h
  refine ⟨fun g => ⟨rfl, rfl, rfl⟩, fun q i => ?_⟩
  dsimp only
  rw [update_apply]
  split_ifs <;> exact ⟨rfl, rfl⟩

theorem shmMachine_init (s : Kernel) (h : Boot s) : shmMachine.init (s, fun _ => none) :=
  ⟨boot_noShm h, rfl⟩

end Steps

instance (s : Kernel) (p : PIdx) (i g : ShmIdx) (n : Bytes) : Decidable (s.HoldsPage p i g n) :=
  inferInstanceAs (Decidable (_ ∧ _))

instance (s : Kernel) (made : ShmMade) (p : PIdx) (name : Bytes) : Decidable
    (ShmExact s made p name) :=
  decidable_of_iff
    (∀ g, ∀ x ∈ made g, x.2 = (s.proc p).container_id → cstr name <+: x.1 → x.1 = cstr name)
    ⟨fun h g m hg => h g (m, _) hg rfl, fun h g x hg hcid => h g x.1 (hcid ▸ hg)⟩

instance (s : Kernel) (p : PIdx) : (c : ShmCall) → Decidable (ShmReady s p c)
  | .get _ => inferInstanceAs (Decidable (∃ _ ∈ _, (∃ _ ∈ _, _ ≠ _) ∧ _ ∧ _ ∧ (_ ∨ _)))
  | .rem _ => .isTrue trivial

instance (s : Kernel) : Decidable (NoShm s) :=
  decidable_of_iff (_ ∧ _) ⟨fun h => ⟨h.1, h.2⟩, fun h => ⟨h.slot, h.entry⟩⟩

set_option maxRecDepth 100000 in
/-- `init` holds `ab` and asks for `a`: it is told that it holds it. -/
theorem prefix_refused : ∃ x, shmMachine.Reachable x ∧ ¬ NamedExactly x.1 x.2 0 (.get [97]) := by
  have hrun : (smallBoot.toOption.bind fun s =>
      (shmMachine.restrict fun _ _ => true).exec (s, fun _ => none) [(0, .get [97, 98])]).any
      (fun x => x.1.findShmem 0 [97] ≠ none ∧ ∀ i g, ¬ x.1.HoldsPage 0 i g [97]) = true := by
    decide +kernel
  obtain ⟨x, hx, hP⟩ : ∃ x, shmMachine.Reachable x ∧ _ = true :=
    exists_of_smallBoot shmMachine_init (fun _ _ _ => trivial) hrun
  obtain ⟨hheld, hnone⟩ := of_decide_eq_true hP
  refine ⟨x, hx, fun h => ?_⟩
  obtain ⟨i, g, hi⟩ := h.1 hheld
  exact hnone i g hi

set_option maxRecDepth 100000 in
/-- The first process has a child and gets `a` and `ab`. It may remove `ab`, and the child gets the
same page. -/
theorem shm_naming_child : ∃ x, shmMachine.Reach (fun x a => ShmExact x.1 x.2 a.1 a.2.name) x ∧
    x.2 0 = some ([97], 0) ∧ x.2 1 = some ([97, 98], 0) ∧ NamedExactly x.1 x.2 0 (.rem [97, 98]) ∧
      ∃ r s' i, shmGet x.1 1 [97, 98] = .ok (r, s') ∧ r ≠ -1 ∧ s'.HoldsPage 1 i 1 [97, 98] := by
  have hrun : ((Kernel.run (fun _ _ => true) [(0, .fork)]).bind fun s =>
      if NoShm s then
        (shmMachine.restrict fun x a => decide (ShmExact x.1 x.2 a.1 a.2.name)).exec
          (s, fun _ => none)
          [(0, .get [97]), (0, .get [97, 98])]
      else none).any
      (fun x => x.2 0 = some ([97], 0) ∧ x.2 1 = some ([97, 98], 0) ∧ (x.1.shm 1).in_use = true ∧
        (x.1.proc 1).container_id = 0 ∧ (∀ i, ¬ x.1.HoldsPage 1 i 1 [97, 98]) ∧
        ShmExact x.1 x.2 0 [97, 98] ∧
        ShmExact x.1 x.2 1 [97, 98] ∧ ShmReady x.1 1 (.get [97, 98])) = true := by
    decide +kernel
  obtain ⟨x, hx, hP⟩ := (Option.any_eq_true _ _).mp hrun
  obtain ⟨s, -, hexec⟩ := Option.bind_eq_some_iff.mp hx
  split_ifs at hexec with hno
  have hinit : shmMachine.init (s, fun _ => none) := ⟨hno, rfl⟩
  have hreach :=
    shmMachine.reach_of_exec_decide (fun x a => ShmExact x.1 x.2 a.1 a.2.name) hinit _ hexec
  obtain ⟨ha, hab, huse, hcid, hnot, hparent, hchild, hready⟩ := of_decide_eq_true hP
  refine ⟨x, hreach, ha, hab, shm_naming hreach (by decide) (by decide) hparent trivial, ?_⟩
  have hget := shm_naming hreach (by decide) (by decide) hchild hready
  exact hget.2.1 1 huse (by rw [hab, hcid]; rfl) hnot

end Dockv6
