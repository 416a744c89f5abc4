import Dockv6.Mutex.Refcount

/-!
# Mutexes and their names

The search of `mutex_create` stops at a slot whose name only starts with the one it looks for
(`prefix_shares_slot`); and a new name is written over the start of the slot's old one, without a
terminator. The machine of this module records, for each reference, the name and the container of
its `mutex_create`.
-/

namespace Dockv6

open Kernel Function

/-- The name and the container of the `mutex_create` behind each reference. -/
abbrev Made := PIdx × MuxIdx → Option (Bytes × ℕ)

variable {s s' : Kernel} {p : PIdx} {m : MuxIdx} {made : Made}

/-- What a call adds: a successful `mutex_create` returns the index of the new reference. -/
def Kernel.record (s : Kernel) (made : Made) : PIdx × Call → Made
  | (p, .mutexCreate name) =>
    match mutexCreate s p name with
    | .ok (r, _) => fun k =>
      if k.1 = p ∧ (k.2 : Int) = r then some (cstr name, (s.proc p).container_id) else made k
    | .error _ => made
  | _ => made

/-- The kernel with the record. -/
def namingMachine : Machine (Kernel × Made) (PIdx × Call) where
  init s := Boot s.1 ∧ s.2 = fun _ => none
  step s a := (kernelMachine.step s.1 a).map fun t => (t, s.1.record s.2 a)

theorem namingMachine_init (s : Kernel) (h : Boot s) :
    namingMachine.init (s, fun _ => none) := ⟨h, rfl⟩

/-- References have the name and the container of their slot on record, and references on record
with the same name and container have the same slot. -/
structure NameInv (s : Kernel) (made : Made) : Prop where
  named : ∀ {k m}, s.mutexRef k = some m →
    made k = some (cstr (s.mux m).name, (s.mux m).container_id)
  inj : ∀ {k k' m m'}, s.mutexRef k = some m → s.mutexRef k' = some m' → made k = made k' → m = m'

/-! ## Fewer references -/

/-- No reference is new, and the slots referred to keep their names and containers. -/
def RefSub (s s' : Kernel) : Prop :=
  ∀ k m, s'.mutexRef k = some m → s.mutexRef k = some m ∧ (s'.mux m).name = (s.mux m).name ∧
    (s'.mux m).container_id = (s.mux m).container_id

theorem RefSub.of_same (h : MuxSame s s') : RefSub s s' := fun _ _ hk =>
  ⟨h.ref ▸ hk, by rw [h.mux], by rw [h.mux]⟩

theorem RefSub.trans {s1 s2 s3 : Kernel} (h : RefSub s1 s2) (h' : RefSub s2 s3) : RefSub s1 s3 := by
  intro k m hk
  obtain ⟨hk2, hname2, hid2⟩ := h' k m hk
  obtain ⟨hk1, hname1, hid1⟩ := h k m hk2
  exact ⟨hk1, hname2.trans hname1, hid2.trans hid1⟩

theorem NameInv.of_sub (h : NameInv s made) (hs : RefSub s s') : NameInv s' made where
  named hk := by
    obtain ⟨hk, hname, hid⟩ := hs _ _ hk
    rw [hname, hid]
    exact h.named hk
  inj hk hk' heq := h.inj (hs _ _ hk).1 (hs _ _ hk').1 heq

theorem mutexDelete_refSub (h : MuxInv s) (hp : s.live p) (i : MuxIdx) :
    RefSub s (mutexDelete s p i) := by
  intro k m hk
  rw [mutexDelete_ref hp] at hk
  have hne : k ≠ (p, i) := by
    rintro rfl
    rw [update_self] at hk
    cases hk
  rw [update_of_ne hne] at hk
  refine ⟨hk, ?_⟩
  unfold mutexDelete
  split
  · exact ⟨rfl, rfl⟩
  · rename_i m' hm'
    by_cases hmm : m = m'
    · subst hmm
      have hself : s.mutexRef (p, i) = some m := (if_neg hp).trans hm'
      have hcount : (s.mux m).refcount ≠ 1 := by
        have htwo := one_lt_card_refs hk hself hne
        rw [h.count]
        omega
      simp only [setMux, setMutex, Kernel.setProc, update_self]
      unfold Mutex.dropRef
      rw [if_neg hcount]
      split_ifs <;> exact ⟨rfl, rfl⟩
    · simp only [setMux, setMutex, Kernel.setProc, update_of_ne hmm, and_self]

theorem exitMutexes_refSub (h : MuxInv s) (hp : s.live p) : RefSub s (exitMutexes s p) := by
  unfold exitMutexes
  generalize List.finRange MUX_MAXNUM = is
  induction is generalizing s with
  | nil => exact fun _ _ hk => ⟨hk, rfl, rfl⟩
  | cons i is ih =>
    have hp' : (mutexDelete s p i).live p := fun hu => hp (mutexDelete_state s p i p ▸ hu)
    exact (mutexDelete_refSub h hp i).trans (ih (mutexDelete_inv h hp i) hp')

theorem exit_refSub (h : exit s p = .ok s') (hinv : MuxInv s) (hp : s.live p) : RefSub s s' := by
  obtain ⟨s1, hfirst, hp1, -, hlast⟩ := exit_mutexes h hinv hp
  exact ((RefSub.of_same hfirst).trans (exitMutexes_refSub (hinv.of_same hfirst) hp1)).trans
    (.of_same hlast)

/-! ## A new reference -/

/-- The slots that match the name have this very name and are allocated, but for the one that would
be set up; and the name is followed by a zero byte when it is written to that one. -/
def Kernel.namesExactly (s : Kernel) (p : PIdx) (name : Bytes) : Prop :=
  (∀ m, s.muxNamed name (s.proc p).container_id m = true →
    ((s.mux m).isAlloc = 1 ∧ cstr (s.mux m).name = cstr name) ∨ s.firstUnallocated = some m) ∧
  ((∃ m, (s.mux m).isAlloc = 1 ∧ s.muxNamed name (s.proc p).container_id m = true) ∨
    ∀ m, s.firstUnallocated = some m → cstr ((s.mux m).name.drop (strlen name)) = [])

instance (s : Kernel) (p : PIdx) (name : Bytes) : Decidable (s.namesExactly p name) :=
  inferInstanceAs (Decidable ((∀ _, _ → _) ∧ ((∃ _, _) ∨ ∀ _, _ → _)))

theorem Kernel.namesExactly.joinsAllocated {name : Bytes} (h : s.namesExactly p name) :
    s.joinsAllocated p name := fun m hm =>
  (h.1 m hm).imp And.left fun hfirst => (firstUnallocated_eq_some.mp hfirst).2

/-- A reference to `m` is added, and no other slot has the name and the container of `m`. -/
theorem NameInv.add {k : PIdx × MuxIdx} (h : NameInv s made)
    (href : s'.mutexRef = update s.mutexRef k (some m))
    (hmux : ∀ {k' m'}, s.mutexRef k' = some m' → (s'.mux m').name = (s.mux m').name ∧
      (s'.mux m').container_id = (s.mux m').container_id)
    (hnew : ∀ {k' m'}, s.mutexRef k' = some m' → cstr (s.mux m').name = cstr (s'.mux m).name →
      (s.mux m').container_id = (s'.mux m).container_id → m' = m) :
    NameInv s' (update made k (some (cstr (s'.mux m).name, (s'.mux m).container_id))) := by
  -- The other references are on record as before.
  have hold : ∀ {k' m'}, k' ≠ k → s'.mutexRef k' = some m' → s.mutexRef k' = some m' := by
    intro k' m' hne hk'
    rwa [href, update_of_ne hne] at hk'
  have hself : ∀ {m'}, s'.mutexRef k = some m' → m' = m := by
    intro m' hk
    rw [href, update_self] at hk
    exact (Option.some.inj hk).symm
  have hother : ∀ {k' m'}, k' ≠ k → s'.mutexRef k' = some m' →
      made k' = some (cstr (s'.mux m).name, (s'.mux m).container_id) → m' = m := by
    intro k' m' hne hk' hmade
    rw [h.named (hold hne hk')] at hmade
    obtain ⟨hname, hid⟩ := Prod.mk.inj (Option.some.inj hmade)
    exact hnew (hold hne hk') hname hid
  refine ⟨fun {k' m'} hk' => ?_, fun {k1 k2 m1 m2} h1 h2 heq => ?_⟩
  · by_cases hne : k' = k
    · subst hne
      rw [update_self, hself hk']
    · obtain ⟨hname, hid⟩ := hmux (hold hne hk')
      rw [update_of_ne hne, hname, hid]
      exact h.named (hold hne hk')
  · rw [update_apply, update_apply] at heq
    split_ifs at heq with hk1 hk2 hk2
    · subst hk1 hk2
      exact (hself h1).trans (hself h2).symm
    · subst hk1
      exact (hself h1).trans (hother hk2 h2 heq.symm).symm
    · subst hk2
      exact (hother hk1 h1 heq).trans (hself h2).symm
    · exact h.inj (hold hk1 h1) (hold hk2 h2) heq

theorem Kernel.record_eq {name : Bytes} {r : Int} (h : mutexCreate s p name = .ok (r, s')) :
    s.record made (p, .mutexCreate name) = fun k =>
      if k.1 = p ∧ (k.2 : Int) = r then some (cstr name, (s.proc p).container_id) else made k := by
  simp only [record, h]

theorem Kernel.record_of_failed {name : Bytes} (h : mutexCreate s p name = .ok (-1, s')) :
    s.record made (p, .mutexCreate name) = made := by
  rw [record_eq h]
  funext k
  exact if_neg fun hk => by omega

theorem Kernel.record_of_index {name : Bytes} {i : MuxIdx}
    (h : mutexCreate s p name = .ok ((i : Int), s')) : s.record made (p, .mutexCreate name) =
      update made (p, i) (some (cstr name, (s.proc p).container_id)) := by
  rw [record_eq h]
  funext ⟨q, j⟩
  rw [update_apply]
  refine if_congr ?_ rfl rfl
  rw [Prod.mk.injEq, Fin.ext_iff (a := j)]
  exact and_congr_right fun _ => Int.ofNat_inj

/-- An allocated slot has a reference. -/
theorem MuxInv.exists_ref (h : MuxInv s) (hm : (s.mux m).isAlloc = 1) :
    ∃ k, s.mutexRef k = some m := by
  by_contra hnone
  have hcard := card_refs_eq_zero.mpr (not_exists.mp hnone)
  rw [h.alloc, if_pos hcard] at hm
  cases hm

theorem findMux_eq_none {name : Bytes} {cid : ℕ} (h : s.findMux name cid = none)
    (hm : s.firstUnallocated ≠ some m) (hname : cstr (s.mux m).name = cstr name) :
    (s.mux m).container_id ≠ cid := by
  intro hid
  have hnot := List.find?_eq_none.mp h m (List.mem_finRange m)
  refine hnot ?_
  have hcmp : strncmp name (s.mux m).name (strlen name) = 0 := by
    rw [strncmp_strlen_eq_zero_iff, hname, strlen, List.take_length]
  simp [hm, muxNamed, hcmp, hid]

/-- The slot found has the very name, and it has a reference already. -/
theorem NameInv.join {name : Bytes} {i : MuxIdx} (hname : NameInv s made) (hinv : MuxInv s)
    (hp : s.live p) (hok : s.namesExactly p name)
    (hfound : s.findMux name (s.proc p).container_id = some m)
    (hs : s' = (s.setMutex p i (some m)).setMux m (s.mux m).addRef) :
    NameInv s' (update made (p, i) (some (cstr name, (s.proc p).container_id))) := by
  obtain ⟨hother, hnamed⟩ := findMux_eq_some hfound
  obtain ⟨halloc, hcstr⟩ := (hok.1 m hnamed).resolve_right hother
  obtain ⟨k0, hk0⟩ := hinv.exists_ref halloc
  have hid : (s.mux m).container_id = (s.proc p).container_id := by
    simpa using (Bool.and_eq_true_iff.mp hnamed).2
  have hmux : ∀ m', (s'.mux m').name = (s.mux m').name ∧
      (s'.mux m').container_id = (s.mux m').container_id := by
    intro m'
    rw [hs, setMux_mux]
    split_ifs with hm <;> simp [hm, Mutex.addRef, setMutex, Kernel.setProc]
  rw [← hcstr, ← hid, ← (hmux m).1, ← (hmux m).2]
  refine hname.add ?_ (fun {_ m'} _ => hmux m') fun {k' m'} hk' hn hc => ?_
  · rw [hs]
    exact mutexRef_setMutex hp i (some m)
  · refine hname.inj hk' hk0 ?_
    rw [hname.named hk', hname.named hk0, hn, hc, (hmux m).1, (hmux m).2]

/-- The name that `setupMutex` leaves ends where it was written. -/
theorem Kernel.namesExactly.cstr_setup {name : Bytes} {cid : ℕ} (hok : s.namesExactly p name)
    (hnone : s.findMux name (s.proc p).container_id = none) (hfirst : s.firstUnallocated = some m) :
    cstr ((s.mux m).setup name cid).name = cstr name := by
  -- No allocated slot matched, so the zero byte is there.
  have hend : cstr ((s.mux m).name.drop (strlen name)) = [] := by
    refine hok.2.elim (fun ⟨m', halloc, hnamed⟩ => ?_) fun hzero => hzero m hfirst
    refine absurd (List.find?_eq_none.mp hnone m' (List.mem_finRange m')) ?_
    have hne : s.firstUnallocated ≠ some m' := fun hm' => by
      rw [(firstUnallocated_eq_some.mp hm').1] at halloc
      cases halloc
    simp [hne, hnamed]
  calc cstr ((s.mux m).setup name cid).name
      = cstr name ++ cstr ((s.mux m).name.drop (strlen name)) := cstr_strncpy_strlen _ _
    _ = cstr name := by rw [hend, List.append_nil]

/-- The slot set up has no reference, and no slot with one has the name. -/
theorem NameInv.setup {name : Bytes} {i : MuxIdx} (hname : NameInv s made) (hinv : MuxInv s)
    (hp : s.live p) (hok : s.namesExactly p name)
    (hnone : s.findMux name (s.proc p).container_id = none) (hfirst : s.firstUnallocated = some m)
    (hs : s' = (s.setMutex p i (some m)).setMux m ((s.mux m).setup name (s.proc p).container_id)) :
    NameInv s' (update made (p, i) (some (cstr name, (s.proc p).container_id))) := by
  have hunref : ∀ {m'}, s.firstUnallocated = some m' → ∀ k, s.mutexRef k ≠ some m' := fun hm' =>
    (hinv.unreferenced (firstUnallocated_eq_some.mp hm').1).2
  have hself : s'.mux m = (s.mux m).setup name (s.proc p).container_id := by
    rw [hs, setMux_mux, if_pos rfl]
  have hcstr : cstr (s'.mux m).name = cstr name := by rw [hself, hok.cstr_setup hnone hfirst]
  have hid : (s'.mux m).container_id = (s.proc p).container_id := by rw [hself]; rfl
  rw [← hcstr, ← hid]
  refine hname.add ?_ (fun {k' m'} hk' => ?_) fun {k' m'} hk' hn hc => ?_
  · rw [hs]
    exact mutexRef_setMutex hp i (some m)
  · have hne : m' ≠ m := fun hm => hunref hfirst k' (hm ▸ hk')
    rw [hs, setMux_mux, if_neg hne]
    exact ⟨rfl, rfl⟩
  · exact absurd (hc.trans hid)
      (findMux_eq_none hnone (fun hm' => hunref hm' k' hk') (hn.trans hcstr))

theorem mutexCreate_nameInv {name : Bytes} {r : Int} (h : mutexCreate s p name = .ok (r, s'))
    (hinv : MuxInv s) (hname : NameInv s made) (hp : s.canRun p) (hok : s.namesExactly p name) :
    NameInv s' (s.record made (p, .mutexCreate name)) := by
  obtain ⟨rfl, rfl⟩ | ⟨m, i, hfound, hhas, hi, rfl, hs⟩ | ⟨m, hnone, hfirst, hrest⟩ :=
    mutexCreate_cases h
  · rw [record_of_failed h]
    exact hname
  · rw [record_of_index h]
    exact hname.join hinv hp.live hok hfound hs
  · obtain ⟨-, hnew⟩ := hinv.unreferenced (firstUnallocated_eq_some.mp hfirst).1
    obtain ⟨hfull, -, -⟩ | ⟨i, hi, rfl, hs⟩ := hrest
    · exact absurd hfull (freeMuxid_ne_none hinv hp.live fun i => hnew (p, i))
    · rw [record_of_index h]
      exact hname.setup hinv hp.live hok hnone hfirst hs

/-! ## Runs -/

/-- What `mutex_create` needs, and what the counts need. -/
def Kernel.nameOk (s : Kernel) (a : PIdx × Call) : Prop :=
  match a.2 with
  | .mutexCreate name => s.namesExactly a.1 name
  | _ => s.mutexOk a

theorem Kernel.nameOk.mutexOk {a : PIdx × Call} (h : s.nameOk a) : s.mutexOk a := by
  obtain ⟨p, c⟩ := a
  cases c with
  | mutexCreate name => exact namesExactly.joinsAllocated h
  | fork | exit | wait | kill | exec | sbrk | mGet | mRem | cmCreateAndEnter | cmMaxproc | cmSetroot
  | mutexDelete | prioSet | store | other => exact h

theorem Call.run_nameInv {c : Call} (h : c.run s p = .ok s') (hp : s.canRun p)
    (hok : s.nameOk (p, c))
    (hinv : MuxInv s) (hname : NameInv s made) : NameInv s' (s.record made (p, c)) := by
  by_cases hmutex : c.isMutex = false
  · have hsub := RefSub.of_same (c.run_muxSame h hmutex hp hok.mutexOk hinv)
    cases c <;> first | exact hname.of_sub hsub | cases hmutex
  cases c.ran h with
  | exit h => exact hname.of_sub (exit_refSub h hinv hp.live)
  | mutexCreate h => exact mutexCreate_nameInv h hinv hname hp hok
  | mutexDelete i => exact hname.of_sub (mutexDelete_refSub hinv hp.live i)
  | fork | wait | kill | exec | sbrk | mGet | mRem | cmCreateAndEnter | cmMaxproc | cmSetroot
  | prioSet | store | other => exact absurd rfl hmutex

theorem reach_nameInv {x : Kernel × Made} (h : namingMachine.Reach (fun x a => x.1.nameOk a) x) :
    MuxInv x.1 ∧ NameInv x.1 x.2 := by
  refine h.invariant (I := fun x => MuxInv x.1 ∧ NameInv x.1 x.2) (fun x hx => ?_)
    fun x y a ⟨hinv, hname⟩ hok hst => ?_
  · have hinv := boot_muxInv hx.1
    have hnone : ∀ k, x.1.mutexRef k = none := boot_mutexRef hx.1
    exact ⟨hinv, fun hk => by simp [hnone] at hk, fun hk => by simp [hnone] at hk⟩
  · obtain ⟨t, ht, rfl⟩ := Option.map_eq_some_iff.mp hst
    obtain ⟨p, c⟩ := a
    obtain ⟨hp, hrun⟩ := kernelMachine_step ht
    exact ⟨Call.run_muxInv hrun hp hok.mutexOk hinv, Call.run_nameInv hrun hp hok hinv hname⟩

/-- **Mutexes are told apart by name and container, without prefixes and stale names**: two
references of live processes denote the same slot exactly when the `mutex_create`s behind them had
the same name and container. -/
theorem mutex_naming {x : Kernel × Made} (h : namingMachine.Reach (fun x a => x.1.nameOk a) x)
    {k k' : PIdx × MuxIdx} {m m' : MuxIdx} (hk : x.1.mutexRef k = some m)
    (hk' : x.1.mutexRef k' = some m') :
    ∃ n c n' c', x.2 k = some (n, c) ∧ x.2 k' = some (n', c') ∧ (m = m' ↔ n = n' ∧ c = c') := by
  obtain ⟨-, hname⟩ := reach_nameInv h
  refine ⟨_, _, _, _, hname.named hk, hname.named hk', ?_, fun ⟨hn, hc⟩ => hname.inj hk hk' ?_⟩
  · rintro rfl
    exact ⟨rfl, rfl⟩
  · rw [hname.named hk, hname.named hk', hn, hc]

/-- There is no `kill`, and names are neither empty nor of 20 bytes or more. -/
def Call.shortName : Call → Prop
  | .mutexCreate name => 0 < strlen name ∧ strlen name < 20
  | .kill _ | .other _ => False
  | _ => True

instance : (c : Call) → Decidable c.shortName
  | .mutexCreate _ => inferInstanceAs (Decidable (_ ∧ _))
  | .kill _ | .other _ => .isFalse id
  | .fork | .exit | .wait | .exec .. | .sbrk _ | .mGet _ | .mRem _ | .cmCreateAndEnter ..
  | .cmMaxproc _ | .cmSetroot .. | .mutexDelete _ | .prioSet .. | .store .. => .isTrue trivial

set_option maxRecDepth 100000 in
/-- A process creates `ab`; its child asks for `a` and gets the same slot. -/
theorem prefix_shares_slot : ∃ x, namingMachine.Reach (fun _ a => a.2.shortName) x ∧
    x.1.mutexRef (0, 0) = some 0 ∧ x.2 (0, 0) = some ([97, 98], 0) ∧
    x.1.mutexRef (1, 0) = some 0 ∧ x.2 (1, 0) = some ([97], 0) := by
  have hrun : (smallBoot.toOption.bind fun s =>
      (namingMachine.restrict fun _ a => decide a.2.shortName).exec (s, fun _ => none)
        [(0, .fork), (0, .mutexCreate [97, 98]), (1, .mutexCreate [97])]).any
      (fun x => x.1.mutexRef (0, 0) = some 0 ∧ x.2 (0, 0) = some ([97, 98], 0) ∧
        x.1.mutexRef (1, 0) = some 0 ∧ x.2 (1, 0) = some ([97], 0)) = true := by
    decide +kernel
  obtain ⟨x, hx, hP⟩ := exists_of_smallBoot namingMachine_init
    (fun _ _ h => of_decide_eq_true h) hrun
  exact ⟨x, hx, of_decide_eq_true hP⟩

instance (s : Kernel) : (a : PIdx × Call) → Decidable (s.nameOk a)
  | (p, .mutexCreate name) => inferInstanceAs (Decidable (s.namesExactly p name))
  | (p, .kill pid) => inferInstanceAs (Decidable (s.mutexOk (p, .kill pid)))
  | (_, .mutexDelete muxid) => inferInstanceAs (Decidable (muxInRange muxid))
  | (_, .other _) => .isFalse id
  | (_, .fork) | (_, .exit) | (_, .wait) | (_, .exec ..) | (_, .sbrk _) | (_, .mGet _)
  | (_, .mRem _) | (_, .cmCreateAndEnter ..) | (_, .cmMaxproc _) | (_, .cmSetroot ..)
  | (_, .prioSet ..) | (_, .store ..) => .isTrue trivial

set_option maxRecDepth 100000 in
/-- Both processes create `ab`, and the child also `b`. -/
theorem mutex_naming_shared : ∃ x, namingMachine.Reach (fun x a => x.1.nameOk a) x ∧
    x.1.mutexRef (0, 0) = some 0 ∧ x.1.mutexRef (1, 0) = some 0 ∧ x.1.mutexRef (1, 1) = some 1 ∧
    ∃ n c n' c', x.2 (0, 0) = some (n, c) ∧ x.2 (1, 1) = some (n', c') ∧
      ((0 : MuxIdx) = 1 ↔ n = n' ∧ c = c') := by
  have hrun : (smallBoot.toOption.bind fun s =>
      (namingMachine.restrict fun x a => decide (x.1.nameOk a)).exec (s, fun _ => none)
        [(0, .fork), (0, .mutexCreate [97, 98]), (1, .mutexCreate [97, 98]),
          (1, .mutexCreate [98])]).any
      (fun x => x.1.mutexRef (0, 0) = some 0 ∧ x.1.mutexRef (1, 0) = some 0 ∧
        x.1.mutexRef (1, 1) = some 1) = true := by
    decide +kernel
  obtain ⟨x, hx, hP⟩ := exists_of_smallBoot namingMachine_init
    (fun _ _ h => of_decide_eq_true h) hrun
  obtain ⟨h0, h1, h2⟩ := of_decide_eq_true hP
  exact ⟨x, hx, h0, h1, h2, mutex_naming hx h0 h2⟩

end Dockv6
