import Dockv6.Foundations.RefCount
import Dockv6.Kernel.Boot
import Dockv6.Kernel.Enter
import Dockv6.Kernel.Exit

/-!
# The reference counts of mutexes

The count of a slot is the number of indices of processes that refer to it, but `kill` drops the
references of its target without clearing them (`kill_drops_count`), and the search of
`mutex_create` may stop at a slot that is not allocated, because a slot keeps its name when it is
freed.
-/

namespace Dockv6

open Kernel Function

/-- The slot that an index of a process refers to, if the process is live. -/
def Proc.mutexRef (x : Proc) (i : MuxIdx) : Option MuxIdx :=
  if x.state = .UNUSED then none else x.mutex i

theorem Proc.mutexRef_congr {x y : Proc} (hstate : x.state.awake = y.state.awake)
    (hmutex : x.mutex = y.mutex) : x.mutexRef = y.mutexRef := by
  funext i
  simp only [mutexRef, ProcState.unused_iff hstate, hmutex]

/-- The table of all references. -/
def Kernel.mutexRef (s : Kernel) (k : PIdx × MuxIdx) : Option MuxIdx := (s.proc k.1).mutexRef k.2

/-- The pairs of a live process and an index of it that refers to the slot `m`. -/
def Kernel.mutexRefs (s : Kernel) (m : MuxIdx) : Finset (PIdx × MuxIdx) :=
  Finset.univ.filter fun k => s.live k.1 ∧ (s.proc k.1).mutex k.2 = some m

variable {s s' : Kernel} {p : PIdx} {m : MuxIdx} {d : Pgdir}

theorem mutexRefs_eq (s : Kernel) (m : MuxIdx) : s.mutexRefs m = refs s.mutexRef m := by
  ext k
  rw [mem_refs, mutexRefs, Finset.mem_filter, Kernel.mutexRef, Proc.mutexRef]
  split_ifs with h <;> simp [live, h]

/-- The counts are right, a process refers to a slot at most once, and zombies refer to none. -/
structure MuxInv (s : Kernel) : Prop where
  count : ∀ m, (s.mux m).refcount = (refs s.mutexRef m).card
  alloc : ∀ m, (s.mux m).isAlloc = if (refs s.mutexRef m).card = 0 then 0 else 1
  inj : ∀ {p i j m}, s.mutexRef (p, i) = some m → s.mutexRef (p, j) = some m → i = j
  zombie : ∀ {p} i, (s.proc p).state = .ZOMBIE → s.mutexRef (p, i) = none

/-! ## What leaves the references alone -/

/-- The references and the slots are the same, and a new zombie has no references. -/
structure MuxSame (s s' : Kernel) : Prop where
  ref : s'.mutexRef = s.mutexRef
  mux : s'.mux = s.mux
  zombie : ∀ {p}, (s'.proc p).state = .ZOMBIE →
    (s.proc p).state = .ZOMBIE ∨ ∀ i, s.mutexRef (p, i) = none

theorem MuxInv.of_same (h : MuxInv s) (hs : MuxSame s s') : MuxInv s' where
  count m := by rw [hs.mux, hs.ref, h.count m]
  alloc m := by rw [hs.mux, hs.ref, h.alloc m]
  inj hi hj := h.inj (hs.ref ▸ hi) (hs.ref ▸ hj)
  zombie i hz := hs.ref ▸ (hs.zombie hz).elim (h.zombie i) fun hnone => hnone i

namespace MuxSame

theorem refl (s : Kernel) : MuxSame s s := ⟨rfl, rfl, .inl⟩

theorem trans {s1 s2 s3 : Kernel} (h : MuxSame s1 s2) (h' : MuxSame s2 s3) : MuxSame s1 s3 :=
  ⟨h'.ref.trans h.ref, h'.mux.trans h.mux,
    fun hz => (h'.zombie hz).elim h.zombie fun hnone => .inr (h.ref ▸ hnone)⟩

theorem of_proc (h : ∀ q, (s'.proc q).mutexRef = (s.proc q).mutexRef) (hmux : s'.mux = s.mux)
    (hz : ∀ {q}, (s'.proc q).state = .ZOMBIE → (s.proc q).state = .ZOMBIE) : MuxSame s s' :=
  ⟨funext fun k => congrFun (h k.1) k.2, hmux, fun hq => .inl (hz hq)⟩

theorem of_quiet (h : Quiet s s') : MuxSame s s' :=
  of_proc (fun q => Proc.mutexRef_congr (h.awake_eq q) (congrArg Ident.mutex (h.ident q))) h.mux
    fun {q} => (ProcState.zombie_iff (h.awake_eq q)).mp

theorem setProc {x : Proc} (hx : x.mutexRef = (s.proc p).mutexRef)
    (hz : x.state = .ZOMBIE → (s.proc p).state = .ZOMBIE) : MuxSame s (s.setProc p x) := by
  refine of_proc (fun q => ?_) rfl fun {q} => ?_ <;> rw [setProc_proc] <;> split_ifs with hq
  · rw [hx, hq]
  · rfl
  · rw [hq]
    exact hz
  · exact id

end MuxSame

theorem fork_muxSame {r : Int} (h : fork s p = .ok (r, s')) (hp : s.live p) : MuxSame s s' := by
  obtain ⟨d, -, ⟨-, rfl, -⟩ | ⟨s1, hs1, hrest⟩⟩ := fork_cases h
  · exact .refl _
  have hcharged : MuxSame s s1 :=
    .of_proc (fun q => by rw [hs1.proc]) (by cases hs1 <;> rfl) fun hz => by rwa [hs1.proc] at hz
  refine hcharged.trans ?_
  obtain ⟨-, hfailed⟩ | ⟨np, -, hok⟩ := hrest
  · obtain rfl | ⟨np, x, q, m, hunused, hx, -, rfl⟩ := hfailed.unused
    · exact .refl _
    -- The slot that was tried is unused as before.
    refine .of_proc (fun q => ?_) rfl fun {q} => ?_ <;> dsimp only <;> rw [update_apply] <;>
      split_ifs with hq
    · funext i
      simp [Proc.mutexRef, hx, hq, hunused]
    · rfl
    · simp [hx]
    · exact id
  · have hmade := hok.made (by rwa [Kernel.live, hs1.proc])
    have hstate : (s'.proc np).state.awake = .RUNNABLE := congrArg Ident.state hmade.child
    have hmutex : (s'.proc np).mutex = fun _ => none := congrArg Ident.mutex hmade.child
    refine .of_proc (fun q => ?_) hmade.mux fun {q} hz => ?_
    · by_cases hq : q = np
      · funext i
        simp [Proc.mutexRef, hq, hmade.unused, hmutex]
      · rw [hmade.others q hq]
    · by_cases hq : q = np
      · rw [hq] at hz
        simp [hz, ProcState.awake] at hstate
      · rwa [hmade.others q hq] at hz

theorem Proc.mutexRef_of_canRun (h : s.canRun p) : (s.proc p).mutexRef = (s.proc p).mutex := by
  funext i
  rcases h with h | h <;> simp [Proc.mutexRef, h]

theorem wait_muxSame {r : Option Int} (h : wait s p = .ok (r, s')) (hinv : MuxInv s)
    (hp : s.canRun p) : MuxSame s s' := by
  obtain ⟨q, page, d, m, m', c, hq, -, -, -, -, -, rfl⟩ | rfl | rfl := wait_cases h
  · obtain ⟨-, hzombie⟩ := zombieChild_eq_some hq
    have hfreed : MuxSame s (s.setProc q (s.proc q).freed) :=
      .setProc (funext fun i => (hinv.zombie i hzombie).symm) nofun
    exact hfreed.trans (.of_proc (fun _ => rfl) rfl id)
  · exact .refl _
  · exact .setProc (Proc.mutexRef_of_canRun hp).symm nofun

/-! ## One reference changes -/

/-- The place `k` gives up the slot `m`, and the slot becomes `x`. -/
theorem MuxInv.drop {k : PIdx × MuxIdx} {x : Mutex} (h : MuxInv s) (hk : s.mutexRef k = some m)
    (href : s'.mutexRef = update s.mutexRef k none)
    (hmux : s'.mux = update s.mux m x)
    (hstate : ∀ q, (s'.proc q).state = (s.proc q).state)
    (hcount : x.refcount = (s.mux m).refcount - 1)
    (halloc : x.isAlloc = if (s.mux m).refcount = 1 then 0 else (s.mux m).isAlloc) : MuxInv s' := by
  have hcard := card_refs_none hk
  rw [← href] at hcard
  have hold : ∀ {j m'}, s'.mutexRef j = some m' → s.mutexRef j = some m' := by
    intro j m' hj
    rw [href, update_apply] at hj
    split_ifs at hj
    exact hj
  refine ⟨fun m' => ?_, fun m' => ?_, fun hi hj => h.inj (hold hi) (hold hj), fun {q} i hz => ?_⟩
  · have hm := hcard m'
    rw [hmux, update_apply]
    by_cases heq : m' = m
    · rw [if_pos heq] at hm ⊢
      rw [hcount, h.count, ← heq]
      omega
    · rw [if_neg heq] at hm ⊢
      rw [h.count]
      omega
  · have hm := hcard m'
    rw [hmux, update_apply]
    by_cases heq : m' = m
    · rw [if_pos heq] at hm ⊢
      rw [halloc, h.count, h.alloc, ← heq]
      split_ifs <;> omega
    · rw [if_neg heq] at hm ⊢
      rw [h.alloc, ← hm, Nat.add_zero]
  · by_contra hne
    obtain ⟨m', hm'⟩ := Option.ne_none_iff_exists'.mp hne
    simpa [h.zombie i (hstate q ▸ hz)] using hold hm'

/-- The place `(p, i)` gets the slot `m`, and the slot becomes `x`. -/
theorem MuxInv.add {i : MuxIdx} {x : Mutex} (h : MuxInv s) (hk : s.mutexRef (p, i) = none)
    (hnew : ∀ j, s.mutexRef (p, j) ≠ some m) (hp : (s.proc p).state ≠ .ZOMBIE)
    (href : s'.mutexRef = update s.mutexRef (p, i) (some m))
    (hmux : s'.mux = update s.mux m x)
    (hstate : ∀ q, (s'.proc q).state = (s.proc q).state)
    (hcount : x.refcount = (s.mux m).refcount + 1) (halloc : x.isAlloc = 1) : MuxInv s' := by
  have hcard := card_refs_some hk m
  rw [← href] at hcard
  have hold : ∀ {q j m'}, s'.mutexRef (q, j) = some m' →
      (q = p ∧ j = i ∧ m' = m) ∨ s.mutexRef (q, j) = some m' := by
    intro q j m' hj
    rw [href, update_apply] at hj
    split_ifs at hj with heq
    · exact .inl ⟨congrArg Prod.fst heq, congrArg Prod.snd heq, (Option.some.inj hj).symm⟩
    · exact .inr hj
  refine ⟨fun m' => ?_, fun m' => ?_, fun {q j j' m'} hj hj' => ?_, fun {q} j hz => ?_⟩
  · rw [hmux, update_apply, hcard]
    split_ifs with heq
    · rw [hcount, h.count, heq]
      omega
    · rw [h.count, Nat.add_zero]
  · rw [hmux, update_apply, hcard]
    by_cases heq : m' = m
    · rw [if_pos heq, if_pos heq, halloc, if_neg (Nat.succ_ne_zero _)]
    · rw [if_neg heq, if_neg heq, h.alloc, Nat.add_zero]
  · obtain ⟨rfl, rfl, rfl⟩ | hj := hold hj
    · obtain ⟨-, rfl, -⟩ | hj' := hold hj'
      · rfl
      · exact absurd hj' (hnew j')
    · obtain ⟨rfl, rfl, rfl⟩ | hj' := hold hj'
      · exact absurd hj (hnew j)
      · exact h.inj hj hj'
  · by_contra hne
    obtain ⟨m', hm'⟩ := Option.ne_none_iff_exists'.mp hne
    rw [hstate] at hz
    obtain ⟨rfl, -, -⟩ | hm' := hold hm'
    · exact hp hz
    · simp [h.zombie j hz] at hm'

theorem mutexRef_setMutex (hp : s.live p) (i : MuxIdx) (o : Option MuxIdx) :
    (s.setMutex p i o).mutexRef = update s.mutexRef (p, i) o := by
  funext ⟨q, j⟩
  by_cases hq : q = p
  · subst hq
    have hstate : (s.proc q).state ≠ .UNUSED := hp
    by_cases hj : j = i <;> simp [Kernel.mutexRef, Proc.mutexRef, setMutex, hstate, hj]
  · simp [Kernel.mutexRef, setMutex, setProc_of_ne _ _ _ hq, hq]

/-! ## The calls -/

theorem mutexCreate_state {name : Bytes} {r : Int} (h : mutexCreate s p name = .ok (r, s'))
    (q : PIdx) : (s'.proc q).state = (s.proc q).state :=
  (mutexCreate_mutexOnly h).field Proc.state (fun _ _ => rfl) q

theorem mutexDelete_state (s : Kernel) (p : PIdx) (i : MuxIdx) (q : PIdx) :
    ((mutexDelete s p i).proc q).state = (s.proc q).state :=
  (mutexDelete_mutexOnly s p i).field Proc.state (fun _ _ => rfl) q

theorem mutexDelete_ref (hp : s.live p) (i : MuxIdx) :
    (mutexDelete s p i).mutexRef = update s.mutexRef (p, i) none := by
  unfold mutexDelete
  split
  · rename_i hnone
    refine (update_eq_self_iff.mpr ?_).symm
    simp [Kernel.mutexRef, Proc.mutexRef, hnone]
  · exact mutexRef_setMutex hp i none

theorem mutexDelete_inv (h : MuxInv s) (hp : s.live p) (i : MuxIdx) :
    MuxInv (mutexDelete s p i) := by
  cases hm : (s.proc p).mutex i with
  | none =>
    unfold mutexDelete
    rw [hm]
    exact h
  | some m =>
    refine h.drop (k := (p, i)) (m := m) (x := (s.mux m).dropRef (s.proc p).pid) ?_
      (mutexDelete_ref hp i) ?_ (mutexDelete_state s p i) ?_ ?_
    · exact (if_neg hp).trans hm
    · unfold mutexDelete
      rw [hm]
      rfl
    · unfold Mutex.dropRef
      split_ifs with hone
      · simp [Mutex.dealloc, hone]
      all_goals rfl
    · unfold Mutex.dropRef
      split_ifs <;> rfl

/-- The loop of `exit` keeps the counts right and clears the indices it has been through. -/
theorem exitMutexes_rounds (is : List MuxIdx) (h : MuxInv s) (hp : s.live p) :
    MuxInv (is.foldl (fun s i => mutexDelete s p i) s) ∧
      (∀ q, ((is.foldl (fun s i => mutexDelete s p i) s).proc q).state = (s.proc q).state) ∧
      ∀ i, i ∈ is ∨ s.mutexRef (p, i) = none →
        (is.foldl (fun s i => mutexDelete s p i) s).mutexRef (p, i) = none := by
  induction is generalizing s with
  | nil => exact ⟨h, fun _ => rfl, fun i hi => hi.resolve_left (by simp)⟩
  | cons j is ih =>
    have hstate := mutexDelete_state s p j
    obtain ⟨hinv, hst, hnone⟩ := ih (mutexDelete_inv h hp j) (fun hu => hp (hstate p ▸ hu))
    refine ⟨hinv, fun q => (hst q).trans (hstate q), fun i hi => hnone i ?_⟩
    rw [mutexDelete_ref hp]
    by_cases hij : i = j
    · subst hij
      exact .inr (update_self _ _ _)
    · rw [update_of_ne (by simpa using hij)]
      exact hi.imp_left fun hmem => (List.mem_cons.mp hmem).resolve_left hij

theorem Passed.muxSame (h : Passed p s s') (hp : s.live p) (hnone : ∀ i, s.mutexRef (p, i) = none) :
    MuxSame s s' := by
  have hmutex := h.field Proc.mutex fun _ _ _ _ => rfl
  refine ⟨funext fun ⟨q, i⟩ => ?_, h.mux, fun {q} hz => ?_⟩
  · by_cases hq : q = p
    · subst hq
      have hzombie : (s'.proc q).mutexRef = (s'.proc q).mutex :=
        funext fun i => if_neg (by rw [h.zombie]; exact nofun)
      have hlive : (s.proc q).mutexRef = (s.proc q).mutex := funext fun i => if_neg hp
      exact congrFun (hzombie.trans ((hmutex q).trans hlive.symm)) i
    · exact congrFun (Proc.mutexRef_congr (h.awake hq) (hmutex q)) i
  · by_cases hq : q = p
    · exact .inr (hq ▸ hnone)
    · exact .inl ((ProcState.zombie_iff (h.awake hq)).mp hz)

theorem exit_mutexes (h : exit s p = .ok s') (hinv : MuxInv s) (hp : s.live p) :
    ∃ s1, MuxSame s s1 ∧ s1.live p ∧ MuxInv (exitMutexes s1 p) ∧ MuxSame (exitMutexes s1 p) s' := by
  obtain ⟨-, s1, s2, hfiles, hshm, hpassed⟩ := exit_cases h
  have hquiet := (closeFiles_quiet hfiles).trans (exitShm_quiet hshm)
  have hp2 : s2.live p := (hquiet.live p).mpr hp
  obtain ⟨hinv3, hstate, hnone⟩ :=
    exitMutexes_rounds (List.finRange MUX_MAXNUM) (hinv.of_same (.of_quiet hquiet)) hp2
  have hp3 : (exitMutexes s2 p).live p := fun hu => hp2 ((hstate p).symm.trans hu)
  have hlast := hpassed.muxSame hp3 fun i => hnone i (.inl (List.mem_finRange i))
  exact ⟨s2, .of_quiet hquiet, hp2, hinv3, hlast⟩

theorem exit_inv (h : exit s p = .ok s') (hinv : MuxInv s) (hp : s.live p) : MuxInv s' := by
  obtain ⟨s1, -, -, hinv1, hlast⟩ := exit_mutexes h hinv hp
  exact hinv1.of_same hlast

theorem killMutexes_of_none (is : List MuxIdx) (h : ∀ i, (s.proc p).mutex i = none) :
    is.foldl (fun s i => killMutexes s p i) s = s := by
  induction is with
  | nil => rfl
  | cons i is ih =>
    rw [List.foldl_cons, killMutexes, h i]
    exact ih

/-- `kill` of a process without mutexes. -/
theorem kill_muxSame {pid : Int}
    (h : ∀ q, s.killTarget p pid = some q → ∀ i, (s.proc q).mutex i = none) :
    MuxSame s (kill s p pid).2 := by
  unfold kill
  split
  · exact .refl s
  · rename_i q hq
    have hnone := h q hq
    let x : Proc := { s.proc q with killed := true }
    have hfold := killMutexes_of_none (s := s.setProc q x) (p := q) (List.finRange MUX_MAXNUM)
      (by rw [setProc_self]; exact hnone)
    dsimp only
    rw [hfold, setProc_self]
    have hx : MuxSame s (s.setProc q x) := .setProc rfl id
    refine hx.trans (.setProc ?_ ?_)
    · rw [setProc_self]
      funext i
      unfold Proc.mutexRef
      dsimp only
      rw [show x.mutex = (s.proc q).mutex from rfl, hnone i, ite_self, ite_self]
    · rw [setProc_self]
      dsimp only
      split_ifs
      · exact nofun
      · exact id

theorem freeMuxid_eq_some {i : MuxIdx} (h : s.freeMuxid p = some i) :
    (s.proc p).mutex i = none := by
  simpa using List.find?_some h

/-- A process that refers to every slot at most once, and not to `m`, has a free index. -/
theorem freeMuxid_ne_none (h : MuxInv s) (hp : s.live p) (hm : ∀ i, s.mutexRef (p, i) ≠ some m) :
    s.freeMuxid p ≠ none := by
  intro hfull
  have hall : ∀ i, ∃ m', s.mutexRef (p, i) = some m' := fun i => by
    have hi := List.find?_eq_none.mp hfull i (List.mem_finRange i)
    obtain ⟨m', hm'⟩ := Option.ne_none_iff_exists'.mp (by simpa using hi)
    exact ⟨m', (if_neg hp).trans hm'⟩
  choose f hf using hall
  -- All indices are taken, by different slots: so every slot is among them.
  have hinj : Injective f := fun i j hij => h.inj (hf i) (hij ▸ hf j)
  obtain ⟨i, hi⟩ := Finite.surjective_of_injective hinj m
  exact hm i (hi ▸ hf i)

theorem firstUnallocated_eq_some :
    s.firstUnallocated = some m ↔ (s.mux m).isAlloc = 0 ∧ ∀ m' < m, (s.mux m').isAlloc ≠ 0 := by
  unfold firstUnallocated
  rw [← Fin.find?_eq_find?_finRange, Fin.find?_eq_some_iff]
  simp

theorem findMux_eq_some {name : Bytes} {cid : ℕ} (h : s.findMux name cid = some m) :
    s.firstUnallocated ≠ some m ∧ s.muxNamed name cid m = true := by
  simpa using List.find?_some h

/-- The mutexes whose name starts with `name` are allocated, but for a slot that all slots before
are allocated: that one is set up anew. -/
def Kernel.joinsAllocated (s : Kernel) (p : PIdx) (name : Bytes) : Prop :=
  ∀ m, s.muxNamed name (s.proc p).container_id m = true →
    (s.mux m).isAlloc = 1 ∨ ∀ m' < m, (s.mux m').isAlloc ≠ 0

instance (s : Kernel) (p : PIdx) (name : Bytes) : Decidable (s.joinsAllocated p name) :=
  inferInstanceAs (Decidable (∀ _, _ → _))

theorem MuxInv.isAlloc (h : MuxInv s) (m : MuxIdx) : (s.mux m).isAlloc = 0 ∨
    (s.mux m).isAlloc = 1 := by
  rw [h.alloc]
  split_ifs <;> simp

theorem MuxInv.unreferenced (h : MuxInv s) (hm : (s.mux m).isAlloc = 0) :
    (s.mux m).refcount = 0 ∧ ∀ k, s.mutexRef k ≠ some m := by
  have hcard : (refs s.mutexRef m).card = 0 := by
    by_contra hcard
    rw [h.alloc, if_neg hcard] at hm
    cases hm
  exact ⟨by simp [h.count, hcard], card_refs_eq_zero.mp hcard⟩

/-- The slot at which the search of `mutex_create` stops is allocated. -/
theorem MuxInv.findMux_isAlloc {name : Bytes} (h : MuxInv s) (hjoin : s.joinsAllocated p name)
    (hm : s.findMux name (s.proc p).container_id = some m) : (s.mux m).isAlloc = 1 := by
  obtain ⟨hfirst, hnamed⟩ := findMux_eq_some hm
  refine (hjoin m hnamed).elim id fun hbefore => ?_
  refine (h.isAlloc m).resolve_left fun hzero => hfirst ?_
  exact firstUnallocated_eq_some.mpr ⟨hzero, hbefore⟩

theorem mutexCreate_inv {name : Bytes} {r : Int} (h : mutexCreate s p name = .ok (r, s'))
    (hinv : MuxInv s) (hp : s.canRun p) (hjoin : s.joinsAllocated p name) : MuxInv s' := by
  have href := congrFun (Proc.mutexRef_of_canRun hp)
  obtain ⟨-, rfl⟩ | ⟨m, i, hfound, hhas, hi, -, rfl⟩ | ⟨m, -, hfirst, hrest⟩ := mutexCreate_cases h
  · exact hinv
  · refine hinv.add (p := p) (i := i) (m := m) ?_ (fun j hj => hhas j ?_) hp.ne_zombie
      (mutexRef_setMutex hp.live i (some m)) rfl (mutexCreate_state h) rfl
      (hinv.findMux_isAlloc hjoin hfound)
    · exact (href i).trans (freeMuxid_eq_some hi)
    · exact (href j).symm.trans hj
  · obtain ⟨hcount, hnew⟩ := hinv.unreferenced (firstUnallocated_eq_some.mp hfirst).1
    obtain ⟨hnone, -, -⟩ | ⟨i, hi, -, rfl⟩ := hrest
    · have hsome := freeMuxid_ne_none hinv hp.live fun i => hnew (p, i)
      exact absurd hnone hsome
    · refine hinv.add (p := p) (i := i) (m := m) ?_ (fun j => hnew (p, j)) hp.ne_zombie
        (mutexRef_setMutex hp.live i (some m)) rfl (mutexCreate_state h) ?_ rfl
      · exact (href i).trans (freeMuxid_eq_some hi)
      · rw [hcount]
        rfl

theorem cmMaxproc_muxSame (s : Kernel) (p : PIdx) (n : Int) : MuxSame s (cmMaxproc s p n).2 := by
  obtain ⟨c, hc⟩ := cmMaxproc_eq s p n
  rw [hc]
  exact .of_proc (fun _ => rfl) rfl id

theorem cmCreateAndEnter_muxSame {init fs : Bytes} {n r : Int}
    (h : cmCreateAndEnter s p init fs n = .ok (r, s')) (hp : s.live p) : MuxSame s s' := by
  obtain rfl | ⟨c, cwd, cid, containers, fs, mem, r', s1, hfork, rfl⟩ := cmCreateAndEnter_cases h
  · exact .setProc rfl id
  have hset : MuxSame s (s.setProc p ((s.proc p).entered c cwd cid)) := .setProc rfl id
  have hentered : MuxSame s (s.entered p c cwd cid containers fs mem) :=
    hset.trans (.of_proc (fun _ => rfl) rfl id)
  have hleave : MuxSame s1 (cmLeave s1 p) := .setProc rfl id
  exact hentered.trans ((fork_muxSame hfork (entered_live hp)).trans hleave)

/-! ## Runs -/

/-- The calls that keep the counts right: `kill` of processes without mutexes, `mutex_create` that
does not join a slot that is not allocated, and `mutex_delete` of an index in range. The calls that
take and release a mutex are left out. -/
def Kernel.mutexOk (s : Kernel) (a : PIdx × Call) : Prop :=
  match a.2 with
  | .kill pid => ∀ q, ((s.proc q).pid : Int) = pid →
      (s.proc q).container_id = (s.proc a.1).container_id → ∀ i, (s.proc q).mutex i = none
  | .mutexCreate name => s.joinsAllocated a.1 name
  | .mutexDelete muxid => muxInRange muxid
  | .other _ => False
  | _ => True

instance (s : Kernel) : (a : PIdx × Call) → Decidable (s.mutexOk a)
  | (_, .kill _) => inferInstanceAs (Decidable (∀ _, _ → _ → _))
  | (p, .mutexCreate name) => inferInstanceAs (Decidable (s.joinsAllocated p name))
  | (_, .mutexDelete muxid) => inferInstanceAs (Decidable (muxInRange muxid))
  | (_, .other _) => .isFalse id
  | (_, .fork) | (_, .exit) | (_, .wait) | (_, .exec ..) | (_, .sbrk _) | (_, .mGet _)
  | (_, .mRem _) | (_, .cmCreateAndEnter ..) | (_, .cmMaxproc _) | (_, .cmSetroot ..)
  | (_, .prioSet ..) | (_, .store ..) => .isTrue trivial

theorem killTarget_eq_some {q : PIdx} {pid : Int} (h : s.killTarget p pid = some q) :
    ((s.proc q).pid : Int) = pid ∧ (s.proc q).container_id = (s.proc p).container_id := by
  simpa using List.find?_some h

/-- Does the call work on the mutexes of its process? -/
def Call.isMutex : Call → Bool
  | .exit | .mutexCreate _ | .mutexDelete _ => true
  | _ => false

theorem Call.run_muxSame {c : Call} (h : c.run s p = .ok s') (hc : c.isMutex = false)
    (hp : s.canRun p) (hok : s.mutexOk (p, c)) (hinv : MuxInv s) : MuxSame s s' := by
  by_cases hquiet : c.isQuiet = true
  · exact .of_quiet (c.run_quiet h hquiet)
  cases c.ran h with
  | exec | sbrk | mGet | mRem | cmSetroot | store => exact absurd rfl hquiet
  | exit | mutexCreate | mutexDelete => cases hc
  | prioSet h =>
    obtain ⟨q, mem, rfl⟩ := prioSet_queueOnly h
    exact ⟨rfl, rfl, .inl⟩
  | fork h => exact fork_muxSame h hp.live
  | wait h => exact wait_muxSame h hinv hp
  | kill pid =>
    refine kill_muxSame fun q hq => ?_
    obtain ⟨hpid, hid⟩ := killTarget_eq_some hq
    exact hok q hpid hid
  | cmCreateAndEnter h => exact cmCreateAndEnter_muxSame h hp.live
  | cmMaxproc n => exact cmMaxproc_muxSame s p n
  | other o => exact hok.elim

theorem Call.run_muxInv {c : Call} (h : c.run s p = .ok s') (hp : s.canRun p)
    (hok : s.mutexOk (p, c)) (hinv : MuxInv s) : MuxInv s' := by
  by_cases hmutex : c.isMutex = false
  · exact hinv.of_same (c.run_muxSame h hmutex hp hok hinv)
  cases c.ran h with
  | exit h => exact exit_inv h hinv hp.live
  | mutexCreate h => exact mutexCreate_inv h hinv hp hok
  | mutexDelete i => exact mutexDelete_inv hinv hp.live i
  | fork | wait | kill | exec | sbrk | mGet | mRem | cmCreateAndEnter | cmMaxproc | cmSetroot
  | prioSet | store | other => exact absurd rfl hmutex

theorem boot_mutexRef (h : Boot s) (k : PIdx × MuxIdx) : s.mutexRef k = none := by
  obtain ⟨b, code, p, page, free, mem, d0, d, m0, m, cwd, q, fs, -, -, -, -, -, hs⟩ := boot_cases h
  rw [hs, Kernel.mutexRef]
  dsimp only
  rw [update_apply]
  split_ifs <;> rfl

theorem boot_muxInv (h : Boot s) : MuxInv s := by
  obtain ⟨b, code, p, page, free, mem, d0, d, m0, m, cwd, q, fs, -, -, -, -, -, hs⟩ := boot_cases h
  have hnone := boot_mutexRef h
  have hcard : ∀ m, (refs s.mutexRef m).card = 0 :=
    fun m => card_refs_eq_zero.mpr fun k => by simp [hnone]
  have hmux : ∀ m, s.mux m = .zero := fun m => by rw [hs]; rfl
  refine ⟨fun m => ?_, fun m => ?_, fun hi => ?_, fun i _ => hnone _⟩
  · rw [hmux, hcard]
    rfl
  · rw [hmux, hcard]
    rfl
  · simp [hnone] at hi

theorem reach_muxInv (h : kernelMachine.Reach Kernel.mutexOk s) : MuxInv s :=
  h.invariant (fun _ => boot_muxInv) fun _ _ _ hinv hok hstep =>
    have ⟨hp, hrun⟩ := kernelMachine_step hstep
    Call.run_muxInv hrun hp hok hinv

end Dockv6
