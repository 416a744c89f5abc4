import Dockv6.Foundations.Run
import Dockv6.Foundations.Except
import Dockv6.Kernel.Stop

/-!
# Spin locks

`spinlock.c` on any CPUs and with any locks. A step ends at each access that another CPU can see:
the `xchg`, and the stores to `lk->cpu` and `lk->locked`. Between calls a CPU turns interrupts on
and off while `ncli` is zero.
-/

namespace Dockv6.Acquire

open Function

/-- Where a CPU is: in neither function; at the `xchg`; past it; past `lk->cpu = 0`; and at
`popcli`. -/
inductive Pc (L : Type)
  | run
  | spin (l : L)
  | taken (l : L)
  | left (l : L)
  | done
  deriving DecidableEq

/-- `struct cpu`, with the flag `FL_IF` of the CPU. -/
structure Cpu (L : Type) where
  ncli : ℤ
  intena : Bool
  eflags : Bool
  pc : Pc L

/-- `struct spinlock` -/
structure Lock (C : Type) where
  locked : Bool
  cpu : Option C

/-- The locks and the processors. -/
structure State (C L : Type) where
  lk : L → Lock C
  cpus : C → Cpu L

variable {C L : Type} [DecidableEq C] [DecidableEq L]

/-- Interrupts off, one level deeper. -/
def Cpu.pushcli (x : Cpu L) : Cpu L :=
  { x with
    eflags := false, intena := if x.ncli = 0 then x.eflags else x.intena, ncli := x.ncli + 1 }

/-- One level up; at the outermost, interrupts as before. -/
def Cpu.popcli (x : Cpu L) : Res (Cpu L) :=
  if x.eflags then .error (.panic "popcli - interruptible")
  else if x.ncli - 1 < 0 then .error (.panic "popcli")
  else .ok { x with ncli := x.ncli - 1, eflags := x.ncli - 1 = 0 && x.intena }

/-- `mycpu`, for its check. -/
def Cpu.mycpu (x : Cpu L) : Res Unit :=
  if x.eflags then .error (.panic "mycpu called with interrupts enabled\n") else .ok ()

/-- What `FL_IF` is, or will be after the last `popcli`. -/
def Cpu.restored (x : Cpu L) : Bool := if x.ncli = 0 then x.eflags else x.intena

namespace State

/-- One step: no other CPU stores `c` in a field `cpu`, or clears `locked` while `c` has the
lock. -/
def holding (s : State C L) (c : C) (l : L) : Res Bool := do
  if (s.lk l).locked then
    (s.cpus c).mycpu
    return (s.lk l).cpu == some c
  return false

/-- Change a processor. -/
def setCpu (s : State C L) (c : C) (x : Cpu L) : State C L := { s with cpus := update s.cpus c x }

/-- Change a lock. -/
def setLock (s : State C L) (l : L) (x : Lock C) : State C L := { s with lk := update s.lk l x }

/-- `acquire`, up to the `xchg`. -/
def acquire (s : State C L) (c : C) (l : L) : Res (State C L) := do
  let s := s.setCpu c (s.cpus c).pushcli
  if ← s.holding c l then .error (.panic "acquire")
  return s.setCpu c { s.cpus c with pc := .spin l }

/-- `release`, up to `lk->cpu = 0`. -/
def release (s : State C L) (c : C) (l : L) : Res (State C L) := do
  if !(← s.holding c l) then .error (.panic "release")
  return (s.setLock l { s.lk l with cpu := none }).setCpu c { s.cpus c with pc := .left l }

/-- The CPU goes on in `acquire` or `release`. -/
def next (s : State C L) (c : C) : Res (State C L) :=
  match (s.cpus c).pc with
  | .run => .ok s
  | .spin l =>
    if (s.lk l).locked then .ok s
    else .ok ((s.setLock l { s.lk l with locked := true }).setCpu c
      { s.cpus c with pc := .taken l })
  | .taken l => do
    (s.cpus c).mycpu
    return (s.setLock l { s.lk l with cpu := some c }).setCpu c { s.cpus c with pc := .run }
  | .left l =>
    .ok ((s.setLock l { s.lk l with locked := false }).setCpu c { s.cpus c with pc := .done })
  | .done => do
    let x ← (s.cpus c).popcli
    return s.setCpu c { x with pc := .run }

end State

/-- What a processor may do. -/
inductive Act (C L : Type)
  | acquire (c : C) (l : L)
  | release (c : C) (l : L)
  | next (c : C)
  | flag (c : C) (b : Bool)

/-- Processors that take and release locks. -/
def machine : Machine (State C L) (Act C L) where
  init s := (∀ l, s.lk l = { locked := false, cpu := none }) ∧ ∀ c, (s.cpus c).ncli = 0 ∧
    (s.cpus c).pc = .run
  step s
    | .acquire c l => if (s.cpus c).pc = .run then (s.acquire c l).toOption else none
    | .release c l => if (s.cpus c).pc = .run then (s.release c l).toOption else none
    | .next c => (s.next c).toOption
    | .flag c b =>
      if (s.cpus c).pc = .run ∧ (s.cpus c).ncli = 0 then
          some (s.setCpu c { s.cpus c with eflags := b }) else none

/-- In the middle of taking the lock or giving it up, its field `cpu` is not set. -/
def Pc.half (l : L) : Pc L → Bool
  | .taken l' => l' = l
  | .left l' => l' = l
  | _ => false

/-- The `pushcli` of a call that has not got its lock yet, or no longer has it. -/
def Pc.extra : Pc L → ℤ
  | .spin _ => 1
  | .done => 1
  | _ => 0

/-- The locks that the CPU has. -/
def held [Fintype L] (owner : L → Option C) (c : C) : ℕ :=
  (Finset.univ.filter fun l => owner l = some c).card

/-- The CPUs have the locks as `owner` says. -/
structure Held [Fintype L] (s : State C L) (owner : L → Option C) : Prop where
  lk : ∀ l, s.lk l = (owner l).elim { locked := false, cpu := none } fun c =>
    { locked := true, cpu := if (s.cpus c).pc.half l then none else some c }
  half : ∀ {c l}, (s.cpus c).pc.half l = true → owner l = some c
  ncli : ∀ c, (s.cpus c).ncli = held owner c + (s.cpus c).pc.extra
  off : ∀ c, (s.cpus c).ncli ≠ 0 → (s.cpus c).eflags = false

variable {s t : State C L} {c : C} {l : L}

omit [DecidableEq L] in
theorem acquire_eq_ok : s.acquire c l = .ok t ↔ ¬((s.lk l).locked = true ∧ (s.lk l).cpu = some c) ∧
    s.setCpu c { (s.cpus c).pushcli with pc := .spin l } = t := by
  have hcpu : (s.setCpu c (s.cpus c).pushcli).cpus c = (s.cpus c).pushcli := update_self ..
  have hset : (s.setCpu c (s.cpus c).pushcli).setCpu c { (s.cpus c).pushcli with pc := .spin l } =
      s.setCpu c { (s.cpus c).pushcli with pc := .spin l } := by simp [State.setCpu]
  have hoff : (s.cpus c).pushcli.mycpu = .ok () := rfl
  have hlk : (s.setCpu c (s.cpus c).pushcli).lk = s.lk := rfl
  unfold State.acquire State.holding
  simp only [hcpu, hset, hoff, hlk]
  by_cases hl : (s.lk l).locked <;> by_cases hc : (s.lk l).cpu = some c <;>
    simp [hl, hc, pure, Except.pure, bind, Except.bind]

theorem release_eq_ok : s.release c l = .ok t ↔
    (s.lk l).locked = true ∧ (s.cpus c).eflags = false ∧ (s.lk l).cpu = some c ∧
      (s.setLock l { s.lk l with cpu := none }).setCpu c { s.cpus c with pc := .left l } = t := by
  unfold State.release State.holding Cpu.mycpu
  by_cases hl : (s.lk l).locked <;> by_cases hc : (s.lk l).cpu = some c <;> cases he :
    (s.cpus c).eflags <;> simp [hl, hc, he, pure, Except.pure, bind, Except.bind]

section Invariant

variable [Fintype L] {owner : L → Option C}

/-- A change of owner moves the lock from the count of one CPU to that of the other. -/
theorem held_update (owner : L → Option C) (l : L) (o : Option C) (c : C) :
    held (update owner l o) c + (if owner l = some c then 1 else 0) = held owner c +
    if o = some c then 1 else 0 := by
  have hrest : ∑ l' ∈ Finset.univ.erase l, (if update owner l o l' = some c then 1 else 0) =
      ∑ l' ∈ Finset.univ.erase l, if owner l' = some c then 1 else 0 :=
    Finset.sum_congr rfl fun l' hl' => by rw [update_of_ne (Finset.ne_of_mem_erase hl')]
  have hold := Finset.add_sum_erase Finset.univ (fun l => if owner l = some c then 1 else 0)
    (Finset.mem_univ l)
  have hnew := Finset.add_sum_erase Finset.univ
    (fun l' => if update owner l o l' = some c then 1 else 0)
    (Finset.mem_univ l)
  simp only [update_self] at hnew
  rw [held, held, Finset.card_filter, Finset.card_filter]
  omega

omit [DecidableEq L] in
theorem held_pos (h : owner l = some c) : 0 < held owner c :=
  Finset.card_pos.mpr ⟨l, by simp [h]⟩

omit [DecidableEq L] [Fintype L] in
theorem Pc.extra_nonneg (pc : Pc L) : 0 ≤ pc.extra := by
  cases pc <;> simp [Pc.extra]

/-- A step of one CPU in which no lock changes hands. -/
theorem Held.setCpu (hs : Held s owner) {x : Cpu L}
    (hhalf : ∀ l, x.pc.half l = (s.cpus c).pc.half l)
    (hn : x.ncli + (s.cpus c).pc.extra = (s.cpus c).ncli + x.pc.extra)
    (hoff : x.ncli ≠ 0 → x.eflags = false) : Held (s.setCpu c x) owner := by
  have hpc : ∀ c' l, ((s.setCpu c x).cpus c').pc.half l = (s.cpus c').pc.half l := by
    intro c' l
    by_cases hc : c' = c
    · simp [State.setCpu, hc, hhalf]
    · simp [State.setCpu, hc]
  refine ⟨fun l => ?_, fun h => hs.half (hpc _ _ ▸ h), fun c' => ?_, fun c' => ?_⟩
  · simp only [hpc]
    exact hs.lk l
  · have hc' := hs.ncli c'
    by_cases hc : c' = c
    · subst hc
      simp only [State.setCpu, update_self]
      omega
    · simpa [State.setCpu, hc] using hc'
  · by_cases hc : c' = c
    · subst hc
      simpa [State.setCpu] using hoff
    · simpa [State.setCpu, hc] using hs.off c'

/-- A step of one CPU on a lock that no other has. -/
theorem Held.setLock (hs : Held s owner) {x : Cpu L} {y : Lock C} (o : Option C)
    (hold : ∀ c', owner l = some c' → c' = c) (ho : ∀ c', o = some c' → c' = c)
    (hhalf : ∀ l', l' ≠ l → x.pc.half l' = false ∧ (s.cpus c).pc.half l' = false)
    (hx : x.pc.half l = true → o = some c)
    (hy : y = o.elim { locked := false, cpu := none } fun c =>
      { locked := true, cpu := if x.pc.half l then none else some c })
    (hn : x.ncli + (if owner l = some c then 1 else 0) + (s.cpus c).pc.extra =
      (s.cpus c).ncli + (if o = some c then 1 else 0) + x.pc.extra)
    (hoff : x.ncli ≠ 0 → x.eflags = false) :
    Held ((s.setLock l y).setCpu c x) (update owner l o) := by
  have hself : ((s.setLock l y).setCpu c x).cpus c = x := update_self ..
  have hcpu : ∀ c', c' ≠ c → ((s.setLock l y).setCpu c x).cpus c' = s.cpus c' := fun c' hc =>
    update_of_ne hc ..
  refine ⟨fun l' => ?_, fun {c' l'} h => ?_, fun c' => ?_, fun c' => ?_⟩
  · by_cases hl : l' = l
    · subst hl
      cases o with
      | none => simp [State.setCpu, State.setLock, hy]
      | some c' =>
        obtain rfl := ho c' rfl
        simp [State.setCpu, State.setLock, hy]
    · have hlk := hs.lk l'
      have hsame : ((s.setLock l y).setCpu c x).lk l' = s.lk l' := update_of_ne hl ..
      rw [hsame, hlk, update_of_ne hl]
      cases hown : owner l' with
      | none => rfl
      | some c' =>
        by_cases hc : c' = c
        · subst hc
          simp [hself, (hhalf l' hl).1, (hhalf l' hl).2]
        · simp [hcpu c' hc]
  · by_cases hc : c' = c
    · subst hc
      rw [hself] at h
      by_cases hl : l' = l
      · subst hl
        rw [update_self]
        exact hx h
      · simp [(hhalf l' hl).1] at h
    · rw [hcpu c' hc] at h
      have hown := hs.half h
      have hl : l' ≠ l := fun hl => hc (hold c' (hl ▸ hown))
      rwa [update_of_ne hl]
  · have hc' := hs.ncli c'
    have hcount := held_update owner l o c'
    by_cases hc : c' = c
    · subst hc
      rw [hself]
      zify at hcount
      omega
    · rw [hcpu c' hc]
      rw [if_neg fun h => hc (hold c' h), if_neg fun h => hc (ho c' h)] at hcount
      rw [hc', ← Nat.add_zero (held (update owner l o) c'), hcount, Nat.add_zero]
  · by_cases hc : c' = c
    · subst hc
      rwa [hself]
    · rw [hcpu c' hc]
      exact hs.off c'

theorem Held.locked_cpu (hs : Held s owner) :
    ((s.lk l).locked = true ∧ (s.lk l).cpu = some c) ↔ owner l = some c ∧
    (s.cpus c).pc.half l = false := by
  rw [hs.lk l]
  cases hown : owner l with
  | none => simp
  | some c' =>
    cases hhalf : (s.cpus c').pc.half l with
    | true =>
      simp only [Option.elim_some, hhalf, if_true, reduceCtorEq, and_false,
        Option.some.injEq, false_iff]
      rintro ⟨rfl, hrun⟩
      simp [hhalf] at hrun
    | false =>
      simp only [Option.elim_some, hhalf, Bool.false_eq_true, if_false, true_and, Option.some.injEq]
      exact ⟨fun h => ⟨h, h ▸ hhalf⟩, And.left⟩

theorem Held.off_of_owner (hs : Held s owner) (h : owner l = some c) :
    (s.cpus c).eflags = false := by
  have hpos := held_pos h
  have hn := hs.ncli c
  have hextra := (s.cpus c).pc.extra_nonneg
  exact hs.off c (by omega)

/-- After a step of `acquire` or `release` the locks have owners again, and what the last `popcli`
restores has not changed. -/
structure Keeps (s t : State C L) : Prop where
  held : ∃ owner, Held t owner
  restored : ∀ c, (t.cpus c).restored = (s.cpus c).restored

theorem Held.keeps {x : Cpu L} (h : Held t owner) (ht : t.cpus = update s.cpus c x)
    (hx : x.restored = (s.cpus c).restored) : Keeps s t := by
  refine ⟨⟨owner, h⟩, fun c' => ?_⟩
  rw [ht, update_apply]
  split_ifs with hc
  · rw [hc, hx]
  · rfl

theorem Held.acquire (hs : Held s owner) (hrun : (s.cpus c).pc = .run) (h : s.acquire c l = .ok t) :
    Keeps s t := by
  obtain ⟨-, rfl⟩ := acquire_eq_ok.mp h
  have hn := hs.ncli c
  have hextra := (s.cpus c).pc.extra_nonneg
  have hne : (s.cpus c).ncli + 1 ≠ 0 := by omega
  refine Held.keeps (hs.setCpu (fun l' => by simp [hrun, Pc.half]) ?_ fun _ => rfl) rfl ?_
  · simp [hrun, Pc.extra, Cpu.pushcli]
  · simp [Cpu.restored, Cpu.pushcli, hne]

theorem Held.release (hs : Held s owner) (hrun : (s.cpus c).pc = .run) (h : s.release c l = .ok t) :
    Keeps s t := by
  obtain ⟨hl, -, hc, rfl⟩ := release_eq_ok.mp h
  obtain ⟨hown, -⟩ := hs.locked_cpu.mp ⟨hl, hc⟩
  refine Held.keeps (hs.setLock (some c) ?_ ?_ ?_ ?_ ?_ ?_ (hs.off c)) rfl rfl
  all_goals simp +contextual [hown, hrun, hl, Pc.half, Pc.extra, eq_comm]

theorem Held.xchg (hs : Held s owner) (hpc : (s.cpus c).pc = .spin l)
    (hl : (s.lk l).locked = false) :
    Keeps s ((s.setLock l { s.lk l with locked := true }).setCpu c
      { s.cpus c with pc := .taken l }) := by
  have hfree : owner l = none := by
    have hlk := hs.lk l
    cases hown : owner l with
    | none => rfl
    | some c' => simp [hlk, hown] at hl
  have hlk : s.lk l = { locked := false, cpu := none } := by rw [hs.lk l, hfree, Option.elim_none]
  refine Held.keeps (hs.setLock (some c) ?_ ?_ ?_ ?_ ?_ ?_ (hs.off c)) rfl rfl
  all_goals simp +contextual [hfree, hpc, hlk, Pc.half, Pc.extra, eq_comm]

theorem Held.taken (hs : Held s owner) (hpc : (s.cpus c).pc = .taken l) (hown : owner l = some c) :
    Keeps s ((s.setLock l { s.lk l with cpu := some c }).setCpu c
      { s.cpus c with pc := .run }) := by
  have hlk : s.lk l = { locked := true, cpu := none } := by simp [hs.lk l, hown, hpc, Pc.half]
  refine Held.keeps (hs.setLock (some c) ?_ ?_ ?_ ?_ ?_ ?_ (hs.off c)) rfl rfl
  all_goals simp +contextual [hown, hpc, hlk, Pc.half, Pc.extra, eq_comm]

theorem Held.left (hs : Held s owner) (hpc : (s.cpus c).pc = .left l) (hown : owner l = some c) :
    Keeps s ((s.setLock l { s.lk l with locked := false }).setCpu c
      { s.cpus c with pc := .done }) := by
  have hlk : s.lk l = { locked := true, cpu := none } := by simp [hs.lk l, hown, hpc, Pc.half]
  refine Held.keeps (hs.setLock none ?_ ?_ ?_ ?_ ?_ ?_ (hs.off c)) rfl rfl
  all_goals simp +contextual [hown, hpc, hlk, Pc.half, Pc.extra, eq_comm]

theorem Held.popcli (hs : Held s owner) (hpc : (s.cpus c).pc = .done) :
    ∃ x, (s.cpus c).popcli = .ok x ∧ Keeps s (s.setCpu c { x with pc := .run }) := by
  have hn := hs.ncli c
  rw [hpc, Pc.extra] at hn
  have hne : (s.cpus c).ncli ≠ 0 := by omega
  refine ⟨_, by rw [Cpu.popcli, hs.off c hne, if_neg Bool.false_ne_true, if_neg (by omega)],
    Held.keeps (hs.setCpu (fun l' => by simp [hpc, Pc.half]) ?_ fun hne => ?_) rfl ?_⟩
  · simp [hpc, Pc.extra]
  · simpa using fun h => absurd h hne
  · by_cases hone : (s.cpus c).ncli - 1 = 0 <;> simp [Cpu.restored, hone, hne]

theorem Held.next (hs : Held s owner) (c : C) : ∃ t, s.next c = .ok t ∧ Keeps s t := by
  have hself : Keeps s s := ⟨⟨owner, hs⟩, fun _ => rfl⟩
  unfold State.next
  cases hpc : (s.cpus c).pc with
  | run => exact ⟨s, rfl, hself⟩
  | spin l =>
    cases hl : (s.lk l).locked with
    | true => exact ⟨s, by simp [hl], hself⟩
    | false => exact ⟨_, by simp [hl], hs.xchg hpc hl⟩
  | taken l =>
    have hown : owner l = some c := hs.half (by simp [hpc, Pc.half])
    have hoff : (s.cpus c).mycpu = .ok () := by simp [Cpu.mycpu, hs.off_of_owner hown]
    exact ⟨_, by rw [hoff]; rfl, hs.taken hpc hown⟩
  | left l => exact ⟨_, rfl, hs.left hpc (hs.half (by simp [hpc, Pc.half]))⟩
  | done =>
    obtain ⟨x, hx, hkeeps⟩ := hs.popcli hpc
    exact ⟨_, by rw [hx]; rfl, hkeeps⟩

theorem Held.init (h : machine.init s) : Held s fun _ => none := by
  obtain ⟨hlk, hcpu⟩ := h
  refine ⟨hlk, fun {c l} hc => ?_, fun c => ?_, fun c hc => absurd (hcpu c).1 hc⟩
  · simp [(hcpu c).2, Pc.half] at hc
  · simp [hcpu c, held, Pc.extra]

theorem Held.step {a : Act C L} (hs : Held s owner) (h : machine.step s a = some t) :
    (∃ owner, Held t owner) ∧
    ((∀ c b, a ≠ .flag c b) → ∀ c, (t.cpus c).restored = (s.cpus c).restored) := by
  cases a with
  | acquire c l =>
    obtain ⟨hrun, h⟩ := Option.ite_none_right_eq_some.mp h
    have hk := hs.acquire hrun (toOption_eq_some.mp h)
    exact ⟨hk.held, fun _ => hk.restored⟩
  | release c l =>
    obtain ⟨hrun, h⟩ := Option.ite_none_right_eq_some.mp h
    have hk := hs.release hrun (toOption_eq_some.mp h)
    exact ⟨hk.held, fun _ => hk.restored⟩
  | next c =>
    obtain ⟨u, hu, hk⟩ := hs.next c
    rw [toOption_eq_some.mp h] at hu
    cases hu
    exact ⟨hk.held, fun _ => hk.restored⟩
  | flag c b =>
    obtain ⟨hrun, h⟩ := Option.ite_none_right_eq_some.mp h
    cases h
    exact ⟨⟨owner, hs.setCpu (fun _ => rfl) rfl fun hne => absurd hrun.2 hne⟩,
      fun ha => absurd rfl (ha c b)⟩

/-- **Spin locks exclude the CPUs from each other.** On every run and in every interleaving each
lock has at most one owner, which has interrupts off; `acquire` stops only for a lock that the CPU
owns and `release` only for one that it does not; neither stops half-way; and the interrupt flag
comes back as it was. -/
theorem spinlocks_held (hs : machine.Reachable s) : ∃ owner, Held s owner ∧
    (∀ c l, owner l = some c → (s.cpus c).eflags = false) ∧ (∀ c, ∃ t, s.next c = .ok t) ∧
    (∀ c l, (s.cpus c).pc = .run →
      ((∃ t, s.acquire c l = .ok t) ↔ owner l ≠ some c) ∧
      ((∃ t, s.release c l = .ok t) ↔ owner l = some c)) ∧
    ∀ a t, machine.step s a = some t → (∀ c b, a ≠ .flag c b) →
      ∀ c, (t.cpus c).restored = (s.cpus c).restored := by
  obtain ⟨owner, hheld⟩ := hs.invariant (I := fun s => ∃ owner, Held s owner)
    (fun _ h => ⟨_, Held.init h⟩)
    fun _ _ _ hinv _ hstep => hinv.elim fun _ h => (h.step hstep).1
  refine ⟨owner, hheld, fun c l => hheld.off_of_owner, fun c => ?_, fun c l hrun => ⟨?_, ?_⟩,
    fun a t hstep => (hheld.step hstep).2⟩
  · obtain ⟨t, ht, -⟩ := hheld.next c
    exact ⟨t, ht⟩
  · simp [acquire_eq_ok, hheld.locked_cpu, hrun, Pc.half]
  · simp only [release_eq_ok]
    constructor
    · rintro ⟨t, hl, -, hc, -⟩
      exact (hheld.locked_cpu.mp ⟨hl, hc⟩).1
    · intro hown
      obtain ⟨hl, hc⟩ := hheld.locked_cpu.mpr ⟨hown, by simp [hrun, Pc.half]⟩
      exact ⟨_, hl, hheld.off_of_owner hown, hc, rfl⟩

/-- One CPU owns the lock and the other waits for it. -/
theorem spinlocks_held_two : ∃ s : State Bool Unit, machine.Reachable s ∧
    (s.cpus true).pc = .spin () ∧
    ∃ owner, Held s owner ∧ ∀ c, owner () = some c → (s.cpus c).eflags = false := by
  have hs := Machine.reachable_of_exec (M := machine)
    (s := { lk := fun _ : Unit => ⟨false, none⟩, cpus := fun _ : Bool => ⟨0, true, true, .run⟩ })
    ⟨fun _ => rfl, fun _ => ⟨rfl, rfl⟩⟩
      [.acquire false (), .next false, .acquire true (), .next true, .next false] rfl
  obtain ⟨owner, hheld, hoff, -⟩ := spinlocks_held hs
  exact ⟨_, hs, rfl, owner, hheld, fun c => hoff c ()⟩

end Invariant

end Dockv6.Acquire
