import Dockv6.Kernel.CString
import Dockv6.Kernel.Struct
import Dockv6.Kernel.Vm

/-!
# Requests of dockv6 to the container manager

`dockv6` writes a request to a shared page, two strings and a byte, and the loop of `cm` reads it.
`dockv6` is a new process for each request and starts at the page's start; `cm` goes on from where
it was. So the first request arrives, and the second does not (`request_arrives_iff`).
-/

namespace Dockv6.Cm

open Function

/-! ## The two programs -/

/-- The arguments of `create_and_enter`. -/
structure Request where
  init : Bytes
  fs : Bytes
  nproc : Int
  deriving DecidableEq

/-- The `char` that an `int` is cut to, and the `int` that a `char` is. -/
def tochar (n : Int) : UInt8 := UInt8.ofNat (touint n)

/-- The value of a `char`. -/
def ofchar (c : UInt8) : Int := if c.toNat < 128 then c.toNat else c.toNat - 256

/-- `strcpy(s, t)` from a string `t` to the address `s`. -/
def strcpyTo (d : Pgdir) (mem : Mem) (s : ℕ) : Bytes → Res Mem
  | [] => uwrite d mem s 0
  | c :: t =>
    if c = 0 then uwrite d mem s 0
    else do
      let mem ← uwrite d mem s c
      strcpyTo d mem (s + 1) t

/-- `strcpy(s, t)` from the address `t` to an array `s` of `n` bytes. -/
def strcpyFrom (d : Pgdir) (mem : Mem) : ℕ → ℕ → Res Bytes
  | 0, _ => .error .undefined
  | n + 1, t =>
    match uread d mem t with
    | none => .error (.panic "trap")
    | some c =>
      if c = 0 then .ok []
      else do
        let s ← strcpyFrom d mem n (t + 1)
        return c :: s

/-- `dockv6`, from where it has the shared page at `shmem`. -/
def dockv6 (d : Pgdir) (mem : Mem) (shmem : ℕ) (r : Request) : Res Mem := do
  let mem ← strcpyTo d mem shmem r.init
  let shmem := shmem + (strlen r.init + 1)
  let mem ← strcpyTo d mem shmem r.fs
  let shmem := shmem + (strlen r.fs + 1)
  uwrite d mem shmem (tochar r.nproc)

/-- One round of the loop of `cm`, from when it has been signalled: what it calls `create_and_enter`
with, and the pointer for the next round. -/
def cmRound (d : Pgdir) (mem : Mem) (shmem_addr : ℕ) : Res (Request × ℕ) := do
  let init ← strcpyFrom d mem 16 shmem_addr
  let shmem_addr := shmem_addr + (strlen init + 1)
  let fs ← strcpyFrom d mem 16 shmem_addr
  let shmem_addr := shmem_addr + (strlen fs + 1)
  match uread d mem shmem_addr with
  | none => throw (.panic "trap")
  | some c => return (⟨init, fs, ofchar c⟩, shmem_addr)

/-- Requests one after another, each by a process of its own with the page at an address of its own:
what `cm` calls `create_and_enter` with. -/
def serve (d : Pgdir) (mem : Mem) (shmem_addr : ℕ) : List (Pgdir × ℕ × Request) → Res (List Request)
  | [] => .ok []
  | (w, shmem, r) :: rs => do
    let mem ← dockv6 w mem shmem r
    let (c, shmem_addr) ← cmRound d mem shmem_addr
    let cs ← serve d mem shmem_addr rs
    return c :: cs

/-! ## Bytes of a page -/

/-- A page with the bytes `bs` from the offset on. -/
def overlay (page : ℕ → UInt8) : ℕ → Bytes → ℕ → UInt8
  | _, [] => page
  | off, b :: bs => overlay (update page off b) (off + 1) bs

theorem overlay_append (page : ℕ → UInt8) (off : ℕ) (a b : Bytes) :
    overlay page off (a ++ b) = overlay (overlay page off a) (off + a.length) b := by
  induction a generalizing page off with
  | nil => rfl
  | cons c a ih =>
    rw [List.cons_append, overlay, ih, overlay, List.length_cons, Nat.add_right_comm, Nat.add_assoc]

theorem overlay_of_lt {page : ℕ → UInt8} {off k : ℕ} {bs : Bytes} (h : k < off) :
    overlay page off bs k = page k := by
  induction bs generalizing page off with
  | nil => rfl
  | cons b bs ih => rw [overlay, ih (Nat.lt_succ_of_lt h), update_of_ne h.ne]

theorem overlay_of_ge {page : ℕ → UInt8} {off k : ℕ} {bs : Bytes} (h : off + bs.length ≤ k) :
    overlay page off bs k = page k := by
  induction bs generalizing page off with
  | nil => rfl
  | cons b bs ih =>
    rw [List.length_cons] at h
    rw [overlay, ih (by omega), update_of_ne (by omega)]

theorem overlay_get {page : ℕ → UInt8} {off : ℕ} {a b : Bytes} {c : UInt8} :
    overlay page off (a ++ c :: b) (off + a.length) = c := by
  rw [overlay_append, overlay, overlay_of_lt (Nat.lt_succ_self _), update_self]

/-! ## Access through a page table -/

/-- The page table maps `page`, for writing too, at the address `va`. -/
structure Maps (d : Pgdir) (va page : ℕ) : Prop where
  aligned : va % PGSIZE = 0
  pte : ∃ e, d.pte (va / PGSIZE) = some e ∧ e.ppn = page ∧ e.flags / PTE_W % 2 = 1

section Access

variable {d : Pgdir} {mem : Mem} {va page off n : ℕ} {t : Bytes}

theorem Maps.div_mod (h : Maps d va page) (hoff : off < PGSIZE) :
    (va + off) / PGSIZE = va / PGSIZE ∧ (va + off) % PGSIZE = off := by
  have haligned := h.aligned
  unfold PGSIZE at *
  omega

theorem Maps.uread (h : Maps d va page) (hoff : off < PGSIZE) :
    uread d mem (va + off) = some (mem page off) := by
  obtain ⟨hdiv, hmod⟩ := h.div_mod hoff
  obtain ⟨e, he, rfl, -⟩ := h.pte
  rw [Dockv6.uread, hdiv, hmod, he]
  rfl

theorem Maps.uwrite (h : Maps d va page) (mem : Mem) (hoff : off < PGSIZE) (b : UInt8) :
    uwrite d mem (va + off) b = .ok (update mem page (overlay (mem page) off [b])) := by
  obtain ⟨hdiv, hmod⟩ := h.div_mod hoff
  obtain ⟨e, he, rfl, hw⟩ := h.pte
  unfold Dockv6.uwrite
  rw [hdiv, hmod, he]
  dsimp only
  rw [if_pos hw]
  rfl

/-- A string without zero bytes is copied with its terminator. -/
theorem Maps.strcpyTo (h : Maps d va page) (mem : Mem) (ht : 0 ∉ t)
    (hoff : off + t.length < PGSIZE) : strcpyTo d mem (va + off) t =
      .ok (update mem page (overlay (mem page) off (t ++ [0]))) := by
  induction t generalizing mem off with
  | nil => exact h.uwrite mem hoff 0
  | cons c t ih =>
    rw [List.length_cons] at hoff
    obtain ⟨hc, ht⟩ := not_or.mp (mt List.mem_cons.mpr ht)
    rw [Cm.strcpyTo, if_neg (Ne.symm hc), h.uwrite mem (by omega), bind_eq_ok]
    refine ⟨_, rfl, ?_⟩
    rw [Nat.add_assoc, ih _ ht (by omega), update_self, update_idem]
    rfl

theorem Maps.strcpyFrom (h : Maps d va page) {p : ℕ → UInt8} {a b : Bytes} (ht : 0 ∉ t)
    (hpage : mem page = overlay p 0 (a ++ (t ++ 0 :: b))) (hn : t.length < n)
    (hoff : a.length + t.length < PGSIZE) : strcpyFrom d mem n (va + a.length) = .ok t := by
  induction t generalizing n a with
  | nil =>
    cases n with
    | zero => cases hn
    | succ n =>
      have hend : mem page a.length = 0 := by
        have hget := @overlay_get p 0 a b 0
        rw [Nat.zero_add] at hget
        rw [hpage]
        exact hget
      have hread : Dockv6.uread d mem (va + a.length) = some (mem page a.length) := h.uread hoff
      rw [Cm.strcpyFrom, hread]
      exact if_pos hend
  | cons c t ih =>
    rw [List.length_cons] at hoff hn
    obtain ⟨hc, ht⟩ := not_or.mp (mt List.mem_cons.mpr ht)
    cases n with
    | zero => exact absurd hn (Nat.not_lt_zero _)
    | succ n =>
      have hfirst : mem page a.length = c := by
        have hget := @overlay_get p 0 a (t ++ 0 :: b) c
        rw [Nat.zero_add] at hget
        rw [hpage]
        exact hget
      have hnext : mem page = overlay p 0 ((a ++ [c]) ++ (t ++ 0 :: b)) := by
        rw [hpage, List.append_assoc]
        rfl
      have hrest := ih ht hnext (Nat.lt_of_succ_lt_succ hn)
        (by rw [List.length_append, List.length_singleton]; omega)
      rw [List.length_append, List.length_singleton, ← Nat.add_assoc] at hrest
      rw [Cm.strcpyFrom, h.uread (by omega), hfirst]
      dsimp only
      rw [if_neg (Ne.symm hc), bind_eq_ok]
      exact ⟨t, hrest, rfl⟩

/-- The bytes of a string that was read are not zero. -/
theorem Maps.ne_zero_of_strcpyFrom (h : Maps d va page)
    (hread : Cm.strcpyFrom d mem n (va + off) = .ok t) (hoff : off + n ≤ PGSIZE) {k : ℕ}
    (hk : k < t.length) : mem page (off + k) ≠ 0 := by
  induction n generalizing off t k with
  | zero => cases hread
  | succ n ih =>
    rw [Cm.strcpyFrom, h.uread (by omega)] at hread
    dsimp only at hread
    split_ifs at hread with hzero
    · cases hread
      cases hk
    · obtain ⟨t', hread', ht⟩ := bind_eq_ok.mp hread
      cases ht
      cases k with
      | zero => exact hzero
      | succ k =>
        rw [Nat.add_assoc] at hread'
        rw [Nat.add_comm k, ← Nat.add_assoc]
        exact ih hread' (by omega) (Nat.lt_of_succ_lt_succ hk)

end Access

/-! ## Requests -/

/-- A request with strings that are not empty and have less than 16 bytes. -/
structure Request.Valid (r : Request) : Prop where
  init_ne : r.init ≠ []
  init_zero : 0 ∉ r.init
  init_lt : r.init.length < 16
  fs_ne : r.fs ≠ []
  fs_zero : 0 ∉ r.fs
  fs_lt : r.fs.length < 16
  nproc_nonneg : 0 ≤ r.nproc
  nproc_lt : r.nproc < NPROC

/-- The bytes of a request on the page. -/
def Request.encode (r : Request) : Bytes := r.init ++ (0 :: (r.fs ++ 0 :: [tochar r.nproc]))

theorem Request.length_encode (r : Request) :
    r.encode.length = r.init.length + r.fs.length + 3 := by
  simp only [encode, List.length_append, List.length_cons, List.length_nil]
  omega

/-- How far the pointers move on a request. -/
def Request.skip (r : Request) : ℕ := r.init.length + 1 + (r.fs.length + 1)

theorem strlen_of_zero_notMem {t : Bytes} (h : 0 ∉ t) : strlen t = t.length := by
  have hcstr : cstr t = t := List.takeWhile_eq_self_iff.mpr fun b hb =>
    decide_eq_true fun hzero => h (hzero ▸ hb)
  rw [strlen, hcstr]

theorem ofchar_tochar {n : Int} (h0 : 0 ≤ n) (h : n < NPROC) : ofchar (tochar n) = n := by
  unfold ofchar tochar touint
  unfold NPROC at h
  rw [UInt8.toNat_ofNat']
  split_ifs <;> omega

section Rounds

variable {d w : Pgdir} {mem : Mem} {va shmem page off : ℕ} {r : Request}

theorem Maps.dockv6 (h : Maps w shmem page) (mem : Mem) (hr : r.Valid) :
    dockv6 w mem shmem r = .ok (update mem page (overlay (mem page) 0 r.encode)) := by
  have hinit := hr.init_lt
  have hfs := hr.fs_lt
  have hencode : r.encode = (r.init ++ [0]) ++ ((r.fs ++ [0]) ++ [tochar r.nproc]) := by
    simp [Request.encode]
  unfold Cm.dockv6
  rw [bind_eq_ok, strlen_of_zero_notMem hr.init_zero, strlen_of_zero_notMem hr.fs_zero]
  have hfirst : Cm.strcpyTo w mem shmem r.init = _ :=
    @Maps.strcpyTo w shmem page 0 r.init h mem hr.init_zero (by unfold PGSIZE; omega)
  refine ⟨_, hfirst, ?_⟩
  dsimp only
  rw [bind_eq_ok]
  refine ⟨_, h.strcpyTo _ hr.fs_zero (by unfold PGSIZE; omega), ?_⟩
  rw [Nat.add_assoc, h.uwrite _ (by unfold PGSIZE; omega), hencode,
    overlay_append _ _ (r.init ++ [0]), overlay_append _ _ (r.fs ++ [0])]
  simp only [update_self, update_idem, List.length_append, List.length_singleton,
    Nat.zero_add]

/-- The first round reads the request at the page's start. -/
theorem Maps.cmRound (h : Maps d va page) {p : ℕ → UInt8} (hr : r.Valid)
    (hpage : mem page = overlay p 0 r.encode) : cmRound d mem va = .ok (r, va + r.skip) := by
  have hinit := hr.init_lt
  have hfs := hr.fs_lt
  have h1 : Cm.strcpyFrom d mem 16 va = .ok r.init :=
    h.strcpyFrom (a := []) hr.init_zero hpage hinit
      (by unfold PGSIZE; simp only [List.length_nil]; omega)
  have hpage2 : mem page = overlay p 0 ((r.init ++ [0]) ++ (r.fs ++ 0 :: [tochar r.nproc])) := by
    rw [hpage, List.append_assoc]
    rfl
  have h2 := h.strcpyFrom hr.fs_zero hpage2 hfs
    (by unfold PGSIZE; rw [List.length_append, List.length_singleton]; omega)
  rw [List.length_append, List.length_singleton] at h2
  have h3 : Dockv6.uread d mem (va + r.skip) = some (tochar r.nproc) := by
    have hget := @overlay_get p 0 ((r.init ++ [0]) ++ (r.fs ++ [0])) [] (tochar r.nproc)
    have hencode : ((r.init ++ [0]) ++ (r.fs ++ [0])) ++ [tochar r.nproc] = r.encode := by
      simp [Request.encode]
    have hlength : ((r.init ++ [0]) ++ (r.fs ++ [0])).length = r.skip := by
      simp only [Request.skip, List.length_append, List.length_singleton]
    rw [hencode, hlength, Nat.zero_add] at hget
    rw [h.uread (by unfold Request.skip PGSIZE; omega), hpage, hget]
  unfold Cm.cmRound
  rw [bind_eq_ok]
  refine ⟨_, h1, ?_⟩
  rw [bind_eq_ok, strlen_of_zero_notMem hr.init_zero]
  refine ⟨_, h2, ?_⟩
  rw [Request.skip] at h3 ⊢
  rw [strlen_of_zero_notMem hr.fs_zero, Nat.add_assoc]
  dsimp only
  rw [h3]
  dsimp only
  rw [ofchar_tochar hr.nproc_nonneg hr.nproc_lt]
  rfl

/-- Where all bytes from `n` on are zero, the second string that a round reads ends before `n`. -/
theorem Maps.cmRound_lt (h : Maps d va page) {n q : ℕ} (hr : r.Valid)
    (hround : Cm.cmRound d mem (va + off) = .ok (r, q)) (hoff : off + 32 ≤ PGSIZE)
    (hzero : ∀ k, n ≤ k → mem page k = 0) : off + r.init.length + r.fs.length < n := by
  obtain ⟨init, hinit, hround⟩ := bind_eq_ok.mp hround
  obtain ⟨fs, hfs, hround⟩ := bind_eq_ok.mp hround
  have hreq : r.init = init ∧ r.fs = fs := by
    dsimp only at hround
    split at hround
    · cases hround
    · cases hround
      exact ⟨rfl, rfl⟩
  obtain ⟨rfl, rfl⟩ := hreq
  have hpos := List.length_pos_of_ne_nil hr.fs_ne
  have hlt := hr.init_lt
  rw [strlen_of_zero_notMem hr.init_zero, Nat.add_assoc] at hfs
  have hlast := h.ne_zero_of_strcpyFrom hfs (by omega) (Nat.sub_lt hpos Nat.one_pos)
  by_contra hn
  exact hlast (hzero _ (by omega))

/-- The second round does not read the second request: behind both requests the page is still zero,
and there the second one would have to end. -/
theorem Maps.cmRound_second_ne (h : Maps d va page) {p : ℕ → UInt8} {r' : Request} {q : ℕ}
    (hr : r.Valid) (hr' : r'.Valid) (hp : ∀ k, p k = 0)
    (hpage : mem page = overlay (overlay p 0 r.encode) 0 r'.encode) :
    Cm.cmRound d mem (va + r.skip) ≠ .ok (r', q) := by
  intro hround
  have hinit := List.length_pos_of_ne_nil hr.init_ne
  have hfs := List.length_pos_of_ne_nil hr.fs_ne
  have hinit_lt := hr.init_lt
  have hfs_lt := hr.fs_lt
  have hinit' := List.length_pos_of_ne_nil hr'.init_ne
  have hzero : ∀ k, max r.encode.length r'.encode.length ≤ k → mem page k = 0 := by
    intro k hk
    rw [hpage, overlay_of_ge (by omega), overlay_of_ge (by omega), hp]
  have hlt := h.cmRound_lt hr' hround (by unfold Request.skip PGSIZE; omega) hzero
  rw [r.length_encode, r'.length_encode] at hlt
  unfold Request.skip at hlt
  omega

end Rounds

/-! ## The sequence of requests -/

/-- Requests of different processes, written one after another to one page of zeros, arrive in `cm`
as they were written exactly when there is at most one. -/
theorem request_arrives_iff {d : Pgdir} {mem : Mem} {shmem_addr page : ℕ}
    {rs : List (Pgdir × ℕ × Request)} (hd : Maps d shmem_addr page) (hzero : ∀ k, mem page k = 0)
    (hrs : ∀ r ∈ rs, Maps r.1 r.2.1 page ∧ r.2.2.Valid) :
    serve d mem shmem_addr rs = .ok (rs.map (·.2.2)) ↔ rs.length ≤ 1 := by
  match rs with
  | [] => exact iff_of_true rfl (Nat.zero_le _)
  | (w, shmem, r) :: rs =>
    obtain ⟨hw, hr⟩ : Maps w shmem page ∧ r.Valid := hrs _ List.mem_cons_self
    have hround := hd.cmRound hr (update_self page (overlay (mem page) 0 r.encode) mem)
    match rs with
    | [] =>
      refine iff_of_true ?_ (Nat.le_refl 1)
      unfold serve
      rw [bind_eq_ok]
      refine ⟨_, hw.dockv6 mem hr, ?_⟩
      rw [bind_eq_ok]
      exact ⟨_, hround, rfl⟩
    | (w', shmem', r') :: rs =>
      obtain ⟨hw', hr'⟩ : Maps w' shmem' page ∧ r'.Valid :=
        hrs _ (List.mem_cons_of_mem _ List.mem_cons_self)
      refine iff_of_false (fun hserve => ?_) (by simp)
      obtain ⟨mem1, hmem1, hserve⟩ := bind_eq_ok.mp hserve
      cases (hw.dockv6 mem hr).symm.trans hmem1
      obtain ⟨_, hround1, hserve⟩ := bind_eq_ok.mp hserve
      cases hround.symm.trans hround1
      obtain ⟨cs, hcs, hserve⟩ := bind_eq_ok.mp hserve
      obtain ⟨mem2, hmem2, hcs⟩ := bind_eq_ok.mp hcs
      cases (hw'.dockv6 _ hr').symm.trans hmem2
      obtain ⟨⟨c, q⟩, hround2, hcs⟩ := bind_eq_ok.mp hcs
      obtain ⟨cs', -, hcs⟩ := bind_eq_ok.mp hcs
      cases hcs
      cases hserve
      refine hd.cmRound_second_ne hr hr' hzero ?_ hround2
      rw [update_self, update_self]

/-- The second of two requests: `cm` goes on from the last byte of the first one. -/
theorem second_request_lost :
    let d : Pgdir := ⟨1, fun _ => some ⟨2, fun _ => some ⟨3, PTE_P ||| PTE_W ||| PTE_U⟩⟩, []⟩
    let a : Request := ⟨[97], [98], 1⟩
    let b : Request := ⟨[99], [100], 2⟩
    serve d (fun _ _ => 0) PGSIZE [(d, 0, a), (d, 0, b)] = .ok [a, ⟨[2], [], 0⟩] := by
  decide +kernel

/-- A single request arrives. -/
theorem one_request_arrives :
    let d : Pgdir := ⟨1, fun _ => some ⟨2, fun _ => some ⟨3, PTE_P ||| PTE_W ||| PTE_U⟩⟩, []⟩
    let r : Request := ⟨[97], [98], 1⟩
    serve d (fun _ _ => 0) PGSIZE [(d, 0, r)] = .ok [r] :=
  have hmaps : ∀ va, va % PGSIZE = 0 →
      Maps ⟨1, fun _ => some ⟨2, fun _ => some ⟨3, PTE_P ||| PTE_W ||| PTE_U⟩⟩, []⟩ va 3 :=
    fun _ hva => ⟨hva, _, rfl, rfl, by decide⟩
  (request_arrives_iff (hmaps _ (by decide)) (fun _ => rfl) (by
    rw [List.forall_mem_singleton]
    exact ⟨hmaps _ (by decide), by decide, by decide, by decide, by decide, by decide, by decide,
      by decide, by decide⟩)).mpr (Nat.le_refl 1)

end Dockv6.Cm
