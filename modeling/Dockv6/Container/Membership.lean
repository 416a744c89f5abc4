import Dockv6.Container.Limit

/-!
# Membership in a container

A process is in the container that it was created in, and so are its descendants, until one of them
calls `cm_create_and_enter`: the call moves its caller to the new container and then out of all of
them (`membership_lost`).
-/

namespace Dockv6

open Function

namespace System

variable {P C : Type} {s s' : System P C} {e : Event P C} {born : List (ℕ × ℕ)}

/-- The processes recorded in `born` are where they were born. -/
structure Births (s : System P C) (born : List (ℕ × ℕ)) : Prop where
  pid : ∀ {q y}, s.tree.task q = some y → y.pid < s.tree.nextpid
  recorded : ∀ {b}, b ∈ born → b.1 < s.tree.nextpid ∧ 0 < b.2
  kept : ∀ {b q y}, b ∈ born → s.tree.task q = some y → y.pid = b.1 → y.container_id = b.2
  inside : ∀ {q y b}, s.inside q ≠ none → s.tree.task q = some y → b ∈ born → b.1 ≠ y.pid

/-- A step without a birth: every process was there before, and only a process inside
`cm_create_and_enter` changes its id. -/
structure Barren (s : System P C) (e : Event P C) (s' : System P C) : Prop where
  task : ∀ {q y}, s'.tree.task q = some y → ∃ z, s.tree.task q = some z ∧ y.pid = z.pid ∧
    (y.container_id = z.container_id ∨ s.inside q ≠ none)
  nextpid : s.tree.nextpid ≤ s'.tree.nextpid
  inside : ∀ {q}, s'.inside q ≠ none → s.inside q ≠ none ∨ ∃ c, e = .claim q c

/-- A step in which `p` has a child. -/
structure Birth (s : System P C) (s' : System P C) (p : P) (x : Task P C) (np : P) : Prop where
  parent : s.tree.task p = some x
  unused : s.tree.task np = none
  child : s'.tree.task np = some (x.child p s.tree.nextpid)
  others : ∀ {q}, q ≠ np → s'.tree.task q = s.tree.task q
  nextpid : s'.tree.nextpid = s.tree.nextpid + 1
  inside : ∀ {q}, s'.inside q ≠ none → s.inside q ≠ none

section Steps

variable [DecidableEq P]

/-- A change of the task and the phase of one process that is inside. -/
theorem barren_of_setTask {p : P} {x x' : Task P C} {ph : Phase C} {o : Option (Phase C)}
    {t : Tree P C} (hx : s.tree.task p = some x) (hi : s.inside p = some ph)
    (ht : t.task = update s.tree.task p (some x')) (hpid : x'.pid = x.pid)
    (hn : t.nextpid = s.tree.nextpid) :
    Barren s e { s with tree := t, inside := update s.inside p o } where
  task {q y} hy := by
    replace hy : t.task q = some y := hy
    rw [ht, update_apply] at hy
    split_ifs at hy with hq
    · subst hq
      obtain rfl := Option.some.inj hy
      exact ⟨x, hx, hpid, .inr (by simp [hi])⟩
    · exact ⟨y, hy, rfl, .inl rfl⟩
  nextpid := hn.ge
  inside {q} hq := by
    replace hq : update s.inside p o q ≠ none := hq
    by_cases hqp : q = p
    · exact .inl (by simp [hqp, hi])
    · rw [update_of_ne hqp] at hq
      exact .inl hq

variable [DecidableEq C]

theorem barren_or_birth_of_forks {p : P} {x : Task P C} {r : Int} {t : Tree P C}
    (hx : s.tree.task p = some x) (hf : s.tree.Forks p x r t) (ht : s'.tree = t)
    (hin : ∀ {q}, s'.inside q ≠ none → s.inside q ≠ none) :
    Barren s e s' ∨ ∃ np, Birth s s' p x np := by
  subst ht
  have hbarren : s'.tree.task = s.tree.task → s.tree.nextpid ≤ s'.tree.nextpid → Barren s e s' :=
    fun htask hn => ⟨fun hy => ⟨_, htask ▸ hy, rfl, .inl rfl⟩, hn, fun hq => .inl (hin hq)⟩
  have hcharged : ∀ {t1}, s.tree.Charged x t1 → t1.task = s.tree.task := by
    rintro t1 (_ | _) <;> rfl
  generalize htree : s'.tree = t at hf hbarren
  cases hf with
  | refused => exact .inl (hbarren rfl le_rfl)
  | failed hc n hn =>
    have htask := hcharged hc
    exact .inl (hbarren htask hn)
  | child hc np hnp =>
    refine .inr ⟨np, hx, hnp, ?_, fun {q} hq => ?_, ?_, hin⟩
    · rw [htree]
      exact (setTask_task _ _).trans (if_pos rfl)
    · rw [htree]
      exact (setTask_task _ _).trans ((if_neg hq).trans (congrFun (hcharged hc) q))
    · rw [htree]

/-- Every step is of one of the two kinds. -/
theorem barren_or_birth (hs : s.Step e s') :
    Barren s e s' ∨ ∃ p r x np, e = .fork p r ∧ Birth s s' p x np := by
  cases hs with
  | quiet => exact .inl ⟨fun hy => ⟨_, hy, rfl, .inl rfl⟩, le_rfl, .inl⟩
  | fork p x hx hz hi hf =>
    refine Or.imp_right ?_ (barren_or_birth_of_forks hx hf rfl id)
    rintro ⟨np, hbirth⟩
    exact ⟨p, _, x, np, rfl, hbirth⟩
  | exit p x hx hz hi hinit =>
    refine .inl ⟨fun {q y} hy => ?_, le_rfl, .inl⟩
    obtain ⟨y0, hy0, rfl⟩ := Option.map_eq_some_iff.mp hy
    exact ⟨y0, hy0, rfl, .inl rfl⟩
  | wait p x hx hz hi hw =>
    cases hw with
    | idle => exact .inl ⟨fun hy => ⟨_, hy, rfl, .inl rfl⟩, le_rfl, .inl⟩
    | reaped q y hy hp hzq hcred =>
      rename_i t1
      obtain ⟨htask, hn⟩ : t1.task = s.tree.task ∧ t1.nextpid = s.tree.nextpid := by
        cases hcred <;> exact ⟨rfl, rfl⟩
      refine .inl ⟨fun {q' z} hz' => ⟨z, ?_, rfl, .inl rfl⟩, hn.ge, .inl⟩
      replace hz' : (t1.setTask q none).task q' = some z := hz'
      rw [setTask_task] at hz'
      split_ifs at hz'
      rwa [htask] at hz'
  | maxproc p x hx hi n =>
    obtain hmax | ⟨c, hmax⟩ := s.tree.maxproc_eq x n <;> rw [hmax] <;>
      exact .inl ⟨fun hy => ⟨_, hy, rfl, .inl rfl⟩, le_rfl, .inl⟩
  | claim p x hx hz hi c hc fs n =>
    refine .inl ⟨fun hy => ⟨_, hy, rfl, .inl rfl⟩, le_rfl, fun {q} hq => ?_⟩
    by_cases hqp : q = p
    · exact .inr ⟨c, by rw [hqp]⟩
    · exact .inl fun hnone => hq ((update_of_ne hqp _ _).trans hnone)
  | enter p x hx c fs n hi => exact .inl (barren_of_setTask hx hi rfl rfl rfl)
  | move p x hx c n hi =>
    obtain hmax | ⟨c', hmax⟩ := Tree.maxproc_eq (s.tree.setTask p
      (some { x with container_id := s.tree.cid c })) { x with container_id := s.tree.cid c } n <;>
      rw [hmax] <;> exact .inl (barren_of_setTask hx hi rfl rfl rfl)
  | start p x hx c hi hf =>
    refine Or.imp_right ?_ (barren_or_birth_of_forks hx hf rfl fun {q} hq => ?_)
    · rintro ⟨np, hbirth⟩
      exact ⟨p, _, x, np, rfl, hbirth⟩
    · by_cases hqp : q = p
      · simp [hqp, hi]
      · exact fun hnone => hq ((update_of_ne hqp _ _).trans hnone)
  | leave p x hx c hi => exact .inl (barren_of_setTask hx hi rfl rfl rfl)

end Steps

/-- What may be recorded in a step: a new process, with its container or with one that its parent
was born into. -/
def Recorded (s : System P C) (e : Event P C) (s' : System P C) (born : List (ℕ × ℕ))
    (b : ℕ × ℕ) : Prop :=
  ∃ q y, s.tree.task q = none ∧ s'.tree.task q = some y ∧ b.1 = y.pid ∧
    (0 < y.container_id ∧ b.2 = y.container_id ∨
      ∀ p r x, e = .fork p r → s.tree.task p = some x → (x.pid, b.2) ∈ born)

variable {new : List (ℕ × ℕ)}

theorem Births.barren (h : s.Births born) (hs : Barren s e s')
    (hok : ∀ q c y, e = .claim q c → s.tree.task q = some y → y.container_id = 0)
    (hnew : ∀ b ∈ new, s.Recorded e s' born b) : s'.Births (born ++ new) := by
  -- There is nobody new to be recorded.
  have hnone : new = [] := by
    refine List.eq_nil_iff_forall_not_mem.mpr fun b hb => ?_
    obtain ⟨q, y, hq, hy, -⟩ := hnew b hb
    obtain ⟨z, hz, -⟩ := hs.task hy
    rw [hq] at hz
    cases hz
  rw [hnone, List.append_nil]
  refine ⟨fun hy => ?_, fun hb => ?_, fun {b q y} hb hy hpid => ?_, fun {q y b} hq hy hb => ?_⟩
  · obtain ⟨z, hz, hpid, -⟩ := hs.task hy
    exact hpid ▸ (h.pid hz).trans_le hs.nextpid
  · exact ⟨(h.recorded hb).1.trans_le hs.nextpid, (h.recorded hb).2⟩
  · obtain ⟨z, hz, hpid', hid | hin⟩ := hs.task hy
    · exact hid.trans (h.kept hb hz (hpid'.symm.trans hpid))
    · exact absurd (hpid.symm.trans hpid') (h.inside hin hz hb)
  · obtain ⟨z, hz, hpid, -⟩ := hs.task hy
    rw [hpid]
    obtain hin | ⟨c, rfl⟩ := hs.inside hq
    · exact h.inside hin hz hb
    · -- The creator of a container is in none, so it was not born into one.
      intro heq
      have hid := h.kept hb hz heq.symm
      rw [hok q c z rfl hz] at hid
      exact (h.recorded hb).2.ne hid

theorem Births.birth (h : s.Births born) {p : P} {r : Int} {x : Task P C} {np : P}
    (hs : Birth s s' p x np) (he : e = .fork p r) (hin : s.inside np = none)
    (hnew : ∀ b ∈ new, s.Recorded e s' born b) : s'.Births (born ++ new) := by
  have htask : ∀ {q y}, s'.tree.task q = some y →
      (q = np ∧ y = x.child p s.tree.nextpid) ∨ (q ≠ np ∧ s.tree.task q = some y) := by
    intro q y hy
    by_cases hq : q = np
    · subst hq
      exact .inl ⟨rfl, Option.some.inj (hy.symm.trans hs.child)⟩
    · exact .inr ⟨hq, (hs.others hq).symm.trans hy⟩
  -- Only the child is recorded, with its container: its parent was born into no other.
  have hchild : ∀ b ∈ new, b.1 = s.tree.nextpid ∧ 0 < b.2 ∧ b.2 = x.container_id := by
    intro b hb
    obtain ⟨q, y, hq, hy, hpid, hid⟩ := hnew b hb
    obtain ⟨rfl, rfl⟩ | ⟨-, hold⟩ := htask hy
    · obtain ⟨hpos, hid⟩ | hold := hid
      · exact ⟨hpid, hid ▸ hpos, hid⟩
      · have hmem := hold p r x he hs.parent
        exact ⟨hpid, (h.recorded hmem).2, (h.kept hmem hs.parent rfl).symm⟩
    · rw [hq] at hold
      cases hold
  refine ⟨fun hy => ?_, fun {b} hb => ?_, fun {b q y} hb hy hpid => ?_, fun {q y b} hq hy hb => ?_⟩
  · rw [hs.nextpid]
    obtain ⟨rfl, rfl⟩ | ⟨-, hold⟩ := htask hy
    · exact Nat.lt_succ_self _
    · exact (h.pid hold).trans (Nat.lt_succ_self _)
  · rw [hs.nextpid]
    rcases List.mem_append.mp hb with hb | hb
    · exact ⟨(h.recorded hb).1.trans (Nat.lt_succ_self _), (h.recorded hb).2⟩
    · obtain ⟨hpid, hpos, -⟩ := hchild b hb
      exact ⟨hpid ▸ Nat.lt_succ_self _, hpos⟩
  · obtain ⟨rfl, rfl⟩ | ⟨-, hold⟩ := htask hy <;> rcases List.mem_append.mp hb with hb | hb
    · exact absurd hpid.symm (h.recorded hb).1.ne
    · exact (hchild b hb).2.2.symm
    · exact h.kept hb hold hpid
    · exact absurd (hpid.trans (hchild b hb).1) (h.pid hold).ne
  · obtain ⟨rfl, rfl⟩ | ⟨-, hold⟩ := htask hy
    · exact absurd hin (hs.inside hq)
    · rcases List.mem_append.mp hb with hb | hb
      · exact h.inside (hs.inside hq) hold hb
      · exact fun heq => (h.pid hold).ne (heq.symm.trans (hchild b hb).1)

theorem Births.step [DecidableEq P] [DecidableEq C] (h : s.Births born) (hinv : s.Inv)
    (hs : s.Step e s')
    (hok : ∀ q c y, e = .claim q c → s.tree.task q = some y → y.container_id = 0)
    (hnew : ∀ b ∈ new, s.Recorded e s' born b) : s'.Births (born ++ new) := by
  obtain hbarren | ⟨p, r, x, np, he, hbirth⟩ := barren_or_birth hs
  · exact h.barren hbarren hok hnew
  · exact h.birth hbirth he (hinv.inside_eq_none hbirth.unused) hnew

end System

open Kernel

variable {x y : Cm} {a : CmAct}

/-- A container is created by a process outside of containers, if there is one to be had; and a
mutex is deleted by an index in range, since the word before `p->mutex` is `p->container_id`. -/
def Cm.createsOutside (x : Cm) : CmAct → Bool
  | .create p _ _ _ => (x.k.proc p).container_id == 0 || x.k.freeContainer.isNone
  | .call _ (.mutexDelete muxid) => decide (muxInRange muxid)
  | _ => true

theorem mem_newborn {s t : Kernel} {p : PIdx} {born : List (ℕ × ℕ)} {b : ℕ × ℕ}
    (h : b ∈ newborn s t p born) :
    ∃ q, ¬ s.live q ∧ t.live q ∧ b.1 = (t.proc q).pid ∧
      (0 < (t.proc q).container_id ∧ b.2 = (t.proc q).container_id ∨
        ((s.proc p).pid, b.2) ∈ born) := by
  obtain ⟨q, -, hq⟩ := List.mem_flatMap.mp h
  split_ifs at hq with hlive hid
  · refine ⟨q, hlive.1, hlive.2, ?_⟩
    obtain hb | hb := List.mem_append.mp hq
    · obtain rfl := List.mem_singleton.mp hb
      exact ⟨rfl, .inl ⟨hid, rfl⟩⟩
    · obtain ⟨b', hb', rfl⟩ := List.mem_map.mp hb
      obtain ⟨hmem, hpid⟩ := List.mem_filter.mp hb'
      exact ⟨rfl, .inr (beq_iff_eq.mp hpid ▸ hmem)⟩
  · refine ⟨q, hlive.1, hlive.2, ?_⟩
    rw [List.nil_append] at hq
    obtain ⟨b', hb', rfl⟩ := List.mem_map.mp hq
    obtain ⟨hmem, hpid⟩ := List.mem_filter.mp hb'
    exact ⟨rfl, .inr (beq_iff_eq.mp hpid ▸ hmem)⟩
  · cases hq

theorem forking_proc {p : PIdx} (h : x.forking a = some p) : a.proc = p := by
  unfold Cm.forking at h
  split at h
  · exact Option.some.inj h
  · split at h
    · exact Option.some.inj h
    · cases h
  · cases h

theorem recorded_of_newborn {e : Event PIdx CIdx} (hshow : x.Shows a e) {b : ℕ × ℕ}
    (hb : b ∈ newborn x.k y.k a.proc x.born) : x.sys.Recorded e y.sys x.born b := by
  obtain ⟨q, hdead, hlive, hpid, hrest⟩ := mem_newborn hb
  refine ⟨q, (y.k.proc q).toTask, if_pos (not_not.mp hdead), if_neg hlive, hpid, hrest.imp_right ?_⟩
  rintro hmem p r z rfl hz
  obtain ⟨-, rfl⟩ := Proc.task_eq_some hz
  exact forking_proc hshow.1 ▸ hmem

theorem cmMachine_births (h : cmMachine.Reach (fun x a => x.createsOutside a = true) x) :
    x.sys.Inv ∧ x.sys.Births x.born := by
  refine h.invariant (I := fun x => x.sys.Inv ∧ x.sys.Births x.born) (fun x hx => ?_) ?_
  · refine ⟨boot_inv hx, ?_⟩
    obtain ⟨hboot, hinside, -, hborn⟩ := hx
    rw [hborn]
    refine ⟨fun {q y} hy => ?_, nofun, nofun, nofun⟩
    obtain ⟨b, code, p, page, free, mem, d0, d, m0, m, cwd, pq, fs, -, -, -, -, -, hk⟩ :=
      boot_cases hboot
    obtain ⟨-, rfl⟩ := Proc.task_eq_some hy
    show (x.k.proc q).pid < x.k.nextpid
    rw [hk]
    show (update (fun _ => Proc.zero) p (Proc.first page d cwd) q).pid < 2
    rw [update_apply]
    split_ifs
    · exact Nat.one_lt_two
    · exact Nat.two_pos
  · rintro x y a ⟨hinv, hbirths⟩ hok hstep
    obtain ⟨-, ⟨e, he, hshow⟩, hborn⟩ := cmMachine_refines hstep
    refine ⟨hinv.step he, ?_⟩
    rw [hborn]
    refine hbirths.step hinv he ?_ fun b hb => recorded_of_newborn hshow hb
    rintro q c z rfl hz
    obtain ⟨⟨init, fs, n, rfl⟩, hfree⟩ := hshow
    obtain ⟨-, rfl⟩ := Proc.task_eq_some hz
    have hid : (x.k.proc q).container_id = 0 := by simpa [Cm.createsOutside, hfree] using hok
    exact hid

end Dockv6
