import Dockv6.Pipe.Fifo

/-!
# Sleeping and waking up on a pipe

The calls on one pipe in smaller steps than in `Pipe/Fifo.lean`: a process takes `p->lock`, runs
while it holds it, and gives it back where it sleeps or returns, and `kill` may come at any time.
`pipewrite` returns with the readers asleep when it has filled the pipe and finds itself killed, or
the read end closed (`reader_left_asleep`).
-/

namespace Dockv6.Wakeup

open Function

/-- Where a process is in its call. -/
inductive Pc
  | idle
  /-- In `pipewrite`, before it takes the lock, with the bytes to be stored. -/
  | writeAcquire (rest : Bytes)
  | writeLoop (rest : Bytes)
  /-- It has found the pipe full. -/
  | writeFull (rest : Bytes)
  /-- Before `wakeup(&p->nread)`, and then before `sleep(&p->nwrite, &p->lock)`. -/
  | writeWake (rest : Bytes)
  | writeSleep (rest : Bytes)
  /-- `SLEEPING` on `&p->nwrite`. -/
  | writeAsleep (rest : Bytes)
  /-- Before the last `wakeup(&p->nread)`. -/
  | writeEnd
  /-- In `piperead`, before it takes the lock, for `n` bytes. -/
  | readAcquire (n : ℕ)
  | readTest (n : ℕ)
  /-- It has found the pipe empty, and its other end open. -/
  | readEmpty (n : ℕ)
  /-- `SLEEPING` on `&p->nread`. -/
  | readAsleep (n : ℕ)
  | readLoop (n : ℕ)
  /-- Before `wakeup(&p->nwrite)`. -/
  | readEnd
  /-- In `pipeclose` of an end. -/
  | closeAcquire (writable : Bool)
  | close (writable : Bool)
  | closeWake (writable : Bool)
  /-- Before `release(&p->lock)`. -/
  | release
  deriving DecidableEq

namespace Pc

/-- Does the process hold `p->lock`? -/
def inLock : Pc → Bool
  | writeLoop _ | writeFull _ | writeWake _ | writeSleep _ | writeEnd | readTest _ | readEmpty _
  | readLoop _ | readEnd | close _ | closeWake _ | release => true
  | idle | writeAcquire _ | writeAsleep _ | readAcquire _ | readAsleep _ | closeAcquire _ => false

/-- Is a `wakeup(&p->nread)` still to come before the lock is released? `pipewrite` may leave
without it. -/
def wakesReaders : Pc → Bool
  | writeLoop _ | writeFull _ | writeWake _ | writeEnd | closeWake true => true
  | _ => false

/-- Is a `wakeup(&p->nwrite)` still to come before the lock is released? -/
def wakesWriters : Pc → Bool
  | readLoop _ | readEnd | closeWake false => true
  | _ => false

/-- Has the process found the pipe full, and not decided what to do about it? -/
def atFull : Pc → Bool
  | writeFull _ => true
  | _ => false

/-- Is the process asleep on `&p->nread`? -/
def readerAsleep : Pc → Bool
  | readAsleep _ => true
  | _ => false

/-- Is the process asleep on `&p->nwrite`? -/
def writerAsleep : Pc → Bool
  | writeAsleep _ => true
  | _ => false

/-- What a `wakeup(&p->nread)` makes of it. -/
def wakeRead : Pc → Pc
  | readAsleep n => readAcquire n
  | pc => pc

/-- What a `wakeup(&p->nwrite)` makes of it. -/
def wakeWrite : Pc → Pc
  | writeAsleep rest => writeAcquire rest
  | pc => pc

end Pc

/-- The pipe, the processes, and who holds `p->lock`. -/
structure State (T : Type*) where
  pipe : Fifo.Pipe
  pc : T → Pc
  killed : T → Bool
  lock : Option T
  /-- Both ends are closed and the page is freed. -/
  freed : Bool

/-- What a process may do. -/
inductive Act (T : Type*)
  | pipewrite (t : T) (bytes : Bytes)
  | piperead (t : T) (n : Int)
  | pipeclose (t : T) (writable : Bool)
  /-- The process runs up to its next step. -/
  | run (t : T)
  | kill (t : T)

section Machine

variable {T : Type*} [DecidableEq T]

namespace State

/-- The process goes on at `pc`. -/
def goto (s : State T) (t : T) (pc : Pc) : State T := { s with pc := update s.pc t pc }

/-- The process goes on at `pc`, without the lock. -/
def leave (s : State T) (t : T) (pc : Pc) : State T := { s.goto t pc with lock := none }

/-- `wakeup(&p->nread)` -/
def wakeRead (s : State T) : State T := { s with pc := fun t => (s.pc t).wakeRead }

/-- `wakeup(&p->nwrite)` -/
def wakeWrite (s : State T) : State T := { s with pc := fun t => (s.pc t).wakeWrite }

/-- Take the lock and go on at `pc`. -/
def acquire (s : State T) (t : T) (pc : Pc) : Option (State T) :=
  if s.lock = none ∧ s.freed = false then some { s.goto t pc with lock := some t } else none

/-- `p->writeopen = 0` or `p->readopen = 0` -/
def shut (s : State T) (writable : Bool) : State T :=
  { s with
    pipe := if writable then { s.pipe with writeopen := false }
      else { s.pipe with readopen := false } }

/-- Does `pipewrite` give up when the pipe is full? -/
def givesUp (s : State T) (t : T) : Bool := !s.pipe.readopen || s.killed t

/-- A step of the process. -/
def run (s : State T) (t : T) : Option (State T) :=
  match s.pc t with
  | .idle | .writeAsleep _ | .readAsleep _ => none
  | .writeAcquire rest => s.acquire t (.writeLoop rest)
  | .writeLoop [] => some (s.goto t .writeEnd)
  | .writeLoop (b :: rest) =>
    if s.pipe.isFull then some (s.goto t (.writeFull (b :: rest)))
    else some { s.goto t (.writeLoop rest) with pipe := s.pipe.put b }
  | .writeFull rest =>
    if s.givesUp t then some (s.leave t .idle) else some (s.goto t (.writeWake rest))
  | .writeWake rest => some (s.wakeRead.goto t (.writeSleep rest))
  | .writeSleep rest => some (s.leave t (.writeAsleep rest))
  | .writeEnd => some (s.wakeRead.goto t .release)
  | .readAcquire n => s.acquire t (.readTest n)
  | .readTest n =>
    if s.pipe.isEmpty && s.pipe.writeopen then some (s.goto t (.readEmpty n))
      else some (s.goto t (.readLoop n))
  | .readEmpty n => if s.killed t then some (s.leave t .idle) else some (s.leave t (.readAsleep n))
  | .readLoop 0 => some (s.goto t .readEnd)
  | .readLoop (n + 1) =>
    if s.pipe.isEmpty then some (s.goto t .readEnd)
    else some { s.goto t (.readLoop n) with pipe := s.pipe.next }
  | .readEnd => some (s.wakeWrite.goto t .release)
  | .closeAcquire writable => s.acquire t (.close writable)
  | .close writable => some ((s.shut writable).goto t (.closeWake writable))
  | .closeWake true => some (s.wakeRead.goto t .release)
  | .closeWake false => some (s.wakeWrite.goto t .release)
  | .release =>
    some { s.leave t .idle with freed := s.freed || (!s.pipe.readopen && !s.pipe.writeopen) }

/-- A call of the process. -/
def call (s : State T) (t : T) (pc : Pc) : Option (State T) :=
  match s.pc t with
  | .idle => some (s.goto t pc)
  | _ => none

end State

/-- The state after an action. -/
def step (s : State T) : Act T → Option (State T)
  | .pipewrite t bytes => s.call t (.writeAcquire bytes)
  | .piperead t n => s.call t (.readAcquire n.toNat)
  | .pipeclose t writable => s.call t (.closeAcquire writable)
  | .run t => s.run t
  | .kill t =>
    some { s with
      pc := update s.pc t (s.pc t).wakeRead.wakeWrite
      killed := update s.killed t true }

/-- The pipe as `pipealloc` leaves it, and no call yet. -/
def machine (T : Type*) [DecidableEq T] : Machine (State T) (Act T) where
  init s :=
    s.pipe.nread = 0 ∧ s.pipe.nwrite = 0 ∧ s.pipe.readopen = true ∧ s.pipe.writeopen = true ∧
      (∀ t, s.pc t = .idle) ∧ s.lock = none ∧ s.freed = false
  step := step

/-- No wakeup is lost: when nobody holds the lock, readers sleep on an empty pipe with its write end
open, and writers on a full one with its read end open. -/
structure NoLostWakeup (s : State T) : Prop where
  readers : s.lock = none → ∀ t, (s.pc t).readerAsleep = true →
    s.pipe.isEmpty = true ∧ s.pipe.writeopen = true
  writers : s.lock = none → ∀ t, (s.pc t).writerAsleep = true →
    s.pipe.isFull = true ∧ s.pipe.readopen = true

/-- Where `pipewrite` gives up on a full pipe, no reader is asleep. -/
def givesUpAlone (s : State T) : Act T → Prop
  | .run t => (s.pc t).atFull = true → s.givesUp t = true → ∀ t', (s.pc t').readerAsleep = false
  | _ => True

instance [Fintype T] (s : State T) : (a : Act T) → Decidable (givesUpAlone s a)
  | .run _ => inferInstanceAs (Decidable (_ → _ → ∀ _, _))
  | .pipewrite _ _ | .piperead _ _ | .pipeclose _ _ | .kill _ => .isTrue trivial

/-! ## The invariant -/

/-- What a process has seen of the pipe since it took the lock. -/
def Seen (p : Fifo.Pipe) : Pc → Prop
  | .writeFull _ => p.isFull = true
  | .writeWake _ | .writeSleep _ => p.isFull = true ∧ p.readopen = true
  | .readEmpty _ => p.isEmpty = true ∧ p.writeopen = true
  | _ => True

/-- The one process in its critical section has seen what it acts on, and sleepers have a reason to
sleep or are about to be woken up by it. -/
structure Inv (s : State T) : Prop where
  lock : ∀ t, (s.pc t).inLock = true ↔ s.lock = some t
  seen : ∀ t, Seen s.pipe (s.pc t)
  readers : ∀ t, (s.pc t).readerAsleep = true →
    (s.pipe.isEmpty = true ∧ s.pipe.writeopen = true) ∨ ∃ t', (s.pc t').wakesReaders = true
  writers : ∀ t, (s.pc t).writerAsleep = true →
    (s.pipe.isFull = true ∧ s.pipe.readopen = true) ∨ ∃ t', (s.pc t').wakesWriters = true

variable {s s' : State T} {t : T}

namespace Pc

variable {pc : Pc}

theorem inLock_of_wakesReaders (h : pc.wakesReaders = true) : pc.inLock = true := by
  cases pc <;> first | rfl | cases h

theorem inLock_of_wakesWriters (h : pc.wakesWriters = true) : pc.inLock = true := by
  cases pc <;> first | rfl | cases h

theorem seen_of_not_inLock {p : Fifo.Pipe} (h : pc.inLock = false) : Seen p pc := by
  cases pc <;> trivial

theorem not_readerAsleep (h : pc.inLock = true) : pc.readerAsleep = false := by
  cases pc <;> first | rfl | cases h

theorem not_writerAsleep (h : pc.inLock = true) : pc.writerAsleep = false := by
  cases pc <;> first | rfl | cases h

/-! A wakeup leaves the processes alone that are not asleep on the channel. -/

@[simp] theorem inLock_wakeRead : pc.wakeRead.inLock = pc.inLock := by cases pc <;> rfl

@[simp] theorem inLock_wakeWrite : pc.wakeWrite.inLock = pc.inLock := by cases pc <;> rfl

@[simp] theorem readerAsleep_wakeRead : pc.wakeRead.readerAsleep = false := by cases pc <;> rfl

@[simp] theorem writerAsleep_wakeRead : pc.wakeRead.writerAsleep = pc.writerAsleep := by
  cases pc <;> rfl

@[simp] theorem readerAsleep_wakeWrite : pc.wakeWrite.readerAsleep = pc.readerAsleep := by
  cases pc <;> rfl

@[simp] theorem writerAsleep_wakeWrite : pc.wakeWrite.writerAsleep = false := by cases pc <;> rfl

end Pc

namespace Inv

omit [DecidableEq T] in
/-- The process that holds the lock is the only one that may be about to wake somebody up. -/
theorem wakesReaders_eq (h : Inv s) (ht : s.lock = some t)
    (hw : ∃ t', (s.pc t').wakesReaders = true) : (s.pc t).wakesReaders = true := by
  obtain ⟨t', ht'⟩ := hw
  have hlock := (h.lock t').mp (Pc.inLock_of_wakesReaders ht')
  rwa [Option.some.inj (ht.symm.trans hlock)]

omit [DecidableEq T] in
theorem wakesWriters_eq (h : Inv s) (ht : s.lock = some t)
    (hw : ∃ t', (s.pc t').wakesWriters = true) : (s.pc t).wakesWriters = true := by
  obtain ⟨t', ht'⟩ := hw
  have hlock := (h.lock t').mp (Pc.inLock_of_wakesWriters ht')
  rwa [Option.some.inj (ht.symm.trans hlock)]

/-- A step of the process that holds the lock. The others are where they were, or are woken up. -/
theorem move {pc : Pc} (h : Inv s) (s' : State T) (ht : s.lock = some t) (hpc : s'.pc t = pc)
    (hlock : s'.lock = if pc.inLock then some t else none)
    (hothers : ∀ t', t' ≠ t → (s'.pc t').inLock = (s.pc t').inLock) (hseen : Seen s'.pipe pc)
    (hreaders : (∃ t', t' ≠ t ∧ (s'.pc t').readerAsleep = true) ∨ pc.readerAsleep = true →
      (s'.pipe.isEmpty = true ∧ s'.pipe.writeopen = true) ∨ pc.wakesReaders = true)
    (hwriters : (∃ t', t' ≠ t ∧ (s'.pc t').writerAsleep = true) ∨ pc.writerAsleep = true →
      (s'.pipe.isFull = true ∧ s'.pipe.readopen = true) ∨ pc.wakesWriters = true) : Inv s' := by
  have hout : ∀ t', t' ≠ t → (s'.pc t').inLock = false := by
    intro t' hne
    rw [hothers t' hne, ← Bool.not_eq_true, h.lock, ht]
    exact fun heq => hne (Option.some.inj heq).symm
  constructor
  · intro t'
    rw [hlock]
    by_cases heq : t' = t
    · subst heq
      rw [hpc]
      split_ifs with hin <;> simp [hin]
    · rw [hout t' heq]
      split_ifs
      · simp [Ne.symm heq]
      · simp
  · intro t'
    by_cases heq : t' = t
    · subst heq
      rw [hpc]
      exact hseen
    · exact Pc.seen_of_not_inLock (hout t' heq)
  · intro t' ht'
    refine (hreaders ?_).imp_right fun hw => ⟨t, hpc ▸ hw⟩
    by_cases heq : t' = t
    · subst heq
      exact .inr (hpc ▸ ht')
    · exact .inl ⟨t', heq, ht'⟩
  · intro t' ht'
    refine (hwriters ?_).imp_right fun hw => ⟨t, hpc ▸ hw⟩
    by_cases heq : t' = t
    · subst heq
      exact .inr (hpc ▸ ht')
    · exact .inl ⟨t', heq, ht'⟩

omit [DecidableEq T] in
/-- Why a reader is asleep, with the lock held by `t`. -/
theorem reader (h : Inv s) (ht : s.lock = some t) {t' : T} (ht' : (s.pc t').readerAsleep = true) :
    (s.pipe.isEmpty = true ∧ s.pipe.writeopen = true) ∨ (s.pc t).wakesReaders = true :=
  (h.readers t' ht').imp_right (h.wakesReaders_eq ht)

omit [DecidableEq T] in
/-- Why a writer is asleep, with the lock held by `t`. -/
theorem writer (h : Inv s) (ht : s.lock = some t) {t' : T} (ht' : (s.pc t').writerAsleep = true) :
    (s.pipe.isFull = true ∧ s.pipe.readopen = true) ∨ (s.pc t).wakesWriters = true :=
  (h.writers t' ht').imp_right (h.wakesWriters_eq ht)

/-- The process that holds the lock goes on with it, and wakes up nobody. -/
theorem goto {pc : Pc} {p : Fifo.Pipe} (h : Inv s) (ht : s.lock = some t) (hin : pc.inLock = true)
    (hseen : Seen p pc)
    (hreaders : (s.pipe.isEmpty = true ∧ s.pipe.writeopen = true) ∨ (s.pc t).wakesReaders = true →
      (p.isEmpty = true ∧ p.writeopen = true) ∨ pc.wakesReaders = true)
    (hwriters : (s.pipe.isFull = true ∧ s.pipe.readopen = true) ∨ (s.pc t).wakesWriters = true →
      (p.isFull = true ∧ p.readopen = true) ∨ pc.wakesWriters = true) :
    Inv { s.goto t pc with pipe := p } := by
  have hother : ∀ t', t' ≠ t → (s.goto t pc).pc t' = s.pc t' := fun t' hne => update_of_ne hne _ _
  apply h.move _ ht (update_self ..) (by rw [if_pos hin]; exact ht) _ hseen
  · rintro (⟨t', hne, ht'⟩ | hself)
    · exact hreaders (h.reader ht (hother t' hne ▸ ht'))
    · exact absurd ((Pc.not_readerAsleep hin).symm.trans hself) nofun
  · rintro (⟨t', hne, ht'⟩ | hself)
    · exact hwriters (h.writer ht (hother t' hne ▸ ht'))
    · exact absurd ((Pc.not_writerAsleep hin).symm.trans hself) nofun
  · intro t' hne
    exact congrArg Pc.inLock (hother t' hne)

/-- The process that holds the lock goes on with it, and has not changed the pipe; a wakeup that is
due stays due. -/
theorem stay {pc : Pc} (h : Inv s) (ht : s.lock = some t) (hin : pc.inLock = true)
    (hseen : Seen s.pipe pc) (hreaders : (s.pc t).wakesReaders = true → pc.wakesReaders = true)
    (hwriters : (s.pc t).wakesWriters = true → pc.wakesWriters = true) : Inv (s.goto t pc) :=
  h.goto ht hin hseen (Or.imp_right hreaders) (Or.imp_right hwriters)

/-- The process that holds the lock wakes up the readers. -/
theorem wakeRead {pc : Pc} (h : Inv s) (ht : s.lock = some t) (hin : pc.inLock = true)
    (hseen : Seen s.pipe pc) (hw : (s.pc t).wakesWriters = false) : Inv (s.wakeRead.goto t pc) := by
  have hother : ∀ t', t' ≠ t → (s.wakeRead.goto t pc).pc t' = (s.pc t').wakeRead :=
    fun t' hne => update_of_ne hne _ _
  apply h.move (s.wakeRead.goto t pc) ht (update_self ..) (by rw [if_pos hin]; exact ht) _ hseen
  · rintro (⟨t', hne, ht'⟩ | hself)
    · rw [hother t' hne, Pc.readerAsleep_wakeRead] at ht'
      cases ht'
    · exact absurd ((Pc.not_readerAsleep hin).symm.trans hself) nofun
  · rintro (⟨t', hne, ht'⟩ | hself)
    · rw [hother t' hne, Pc.writerAsleep_wakeRead] at ht'
      exact .inl ((h.writer ht ht').resolve_right (by simp [hw]))
    · exact absurd ((Pc.not_writerAsleep hin).symm.trans hself) nofun
  · intro t' hne
    rw [hother t' hne, Pc.inLock_wakeRead]

/-- The process that holds the lock wakes up the writers. -/
theorem wakeWrite {pc : Pc} (h : Inv s) (ht : s.lock = some t) (hin : pc.inLock = true)
    (hseen : Seen s.pipe pc) (hw : (s.pc t).wakesReaders = false) :
    Inv (s.wakeWrite.goto t pc) := by
  have hother : ∀ t', t' ≠ t → (s.wakeWrite.goto t pc).pc t' = (s.pc t').wakeWrite :=
    fun t' hne => update_of_ne hne _ _
  apply h.move (s.wakeWrite.goto t pc) ht (update_self ..) (by rw [if_pos hin]; exact ht) _ hseen
  · rintro (⟨t', hne, ht'⟩ | hself)
    · rw [hother t' hne, Pc.readerAsleep_wakeWrite] at ht'
      exact .inl ((h.reader ht ht').resolve_right (by simp [hw]))
    · exact absurd ((Pc.not_readerAsleep hin).symm.trans hself) nofun
  · rintro (⟨t', hne, ht'⟩ | hself)
    · rw [hother t' hne, Pc.writerAsleep_wakeWrite] at ht'
      cases ht'
    · exact absurd ((Pc.not_writerAsleep hin).symm.trans hself) nofun
  · intro t' hne
    rw [hother t' hne, Pc.inLock_wakeWrite]

/-- The process gives the lock back, and sleeps or returns. -/
theorem leave {pc : Pc} (h : Inv s) (ht : s.lock = some t) (hout : pc.inLock = false)
    (hreaders : (∃ t', (s.pc t').readerAsleep = true) ∨ pc.readerAsleep = true →
      s.pipe.isEmpty = true ∧ s.pipe.writeopen = true)
    (hwriters : (∃ t', (s.pc t').writerAsleep = true) ∨ pc.writerAsleep = true →
      s.pipe.isFull = true ∧ s.pipe.readopen = true) : Inv (s.leave t pc) := by
  have hother : ∀ t', t' ≠ t → (s.leave t pc).pc t' = s.pc t' := fun t' hne => update_of_ne hne _ _
  apply h.move _ ht (update_self ..) (by rw [hout]; rfl) _ (Pc.seen_of_not_inLock hout)
  · rintro (⟨t', hne, ht'⟩ | hself)
    · exact .inl (hreaders (.inl ⟨t', hother t' hne ▸ ht'⟩))
    · exact .inl (hreaders (.inr hself))
  · rintro (⟨t', hne, ht'⟩ | hself)
    · exact .inl (hwriters (.inl ⟨t', hother t' hne ▸ ht'⟩))
    · exact .inl (hwriters (.inr hself))
  · intro t' hne
    exact congrArg Pc.inLock (hother t' hne)

/-- A process that does not hold the lock goes on without it. It is not put to sleep. -/
theorem outside {pc : Pc} (h : Inv s) (hpc : (s.pc t).inLock = false) (hout : pc.inLock = false)
    (hread : pc.readerAsleep = false) (hwrite : pc.writerAsleep = false) : Inv (s.goto t pc) := by
  have hother : ∀ t', t' ≠ t → (s.goto t pc).pc t' = s.pc t' := fun t' hne => update_of_ne hne _ _
  have hself : (s.goto t pc).pc t = pc := update_self ..
  -- Who is about to wake somebody up holds the lock, and so is not `t`.
  have hkeep : ∀ {f : Pc → Bool}, (∀ {c}, f c = true → c.inLock = true) →
      (∃ t', f (s.pc t') = true) → ∃ t', f ((s.goto t pc).pc t') = true := by
    rintro f hf ⟨t', ht'⟩
    refine ⟨t', ?_⟩
    rw [hother t']
    · exact ht'
    · rintro rfl
      rw [hf ht'] at hpc
      cases hpc
  constructor
  · intro t'
    show ((s.goto t pc).pc t').inLock = true ↔ s.lock = some t'
    by_cases heq : t' = t
    · rw [heq, hself, ← h.lock, hpc, hout]
    · rw [hother t' heq, h.lock]
  · intro t'
    by_cases heq : t' = t
    · rw [heq, hself]
      exact Pc.seen_of_not_inLock hout
    · rw [hother t' heq]
      exact h.seen t'
  · intro t' ht'
    by_cases heq : t' = t
    · rw [heq, hself, hread] at ht'
      cases ht'
    · rw [hother t' heq] at ht'
      exact (h.readers t' ht').imp_right (hkeep Pc.inLock_of_wakesReaders)
  · intro t' ht'
    by_cases heq : t' = t
    · rw [heq, hself, hwrite] at ht'
      cases ht'
    · rw [hother t' heq] at ht'
      exact (h.writers t' ht').imp_right (hkeep Pc.inLock_of_wakesWriters)

/-- A process takes the lock. -/
theorem acquire {pc : Pc} (h : Inv s) (hin : pc.inLock = true) (hseen : Seen s.pipe pc)
    (hrun : s.acquire t pc = some s') : Inv s' := by
  unfold State.acquire at hrun
  split_ifs at hrun with hfree
  obtain rfl := Option.some.inj hrun
  have hother : ∀ t', t' ≠ t → (s.goto t pc).pc t' = s.pc t' := fun t' hne => update_of_ne hne _ _
  have hself : (s.goto t pc).pc t = pc := update_self ..
  have hnobody : ∀ t', (s.pc t').inLock = false := by
    intro t'
    rw [← Bool.not_eq_true, h.lock, hfree.1]
    nofun
  constructor
  · intro t'
    show ((s.goto t pc).pc t').inLock = true ↔ some t = some t'
    by_cases heq : t' = t
    · rw [heq, hself]
      exact iff_of_true hin rfl
    · rw [hother t' heq, hnobody]
      exact iff_of_false nofun fun hsome => heq (Option.some.inj hsome).symm
  · intro t'
    by_cases heq : t' = t
    · subst heq
      show Seen s.pipe ((s.goto t' pc).pc t')
      rw [hself]
      exact hseen
    · show Seen s.pipe ((s.goto t pc).pc t')
      rw [hother t' heq]
      exact h.seen t'
  · intro t' ht'
    replace ht' : ((s.goto t pc).pc t').readerAsleep = true := ht'
    refine .inl ?_
    by_cases heq : t' = t
    · rw [heq, hself, Pc.not_readerAsleep hin] at ht'
      cases ht'
    · rw [hother t' heq] at ht'
      refine (h.readers t' ht').resolve_right ?_
      rintro ⟨t'', hw⟩
      exact absurd ((hnobody t'').symm.trans (Pc.inLock_of_wakesReaders hw)) nofun
  · intro t' ht'
    replace ht' : ((s.goto t pc).pc t').writerAsleep = true := ht'
    refine .inl ?_
    by_cases heq : t' = t
    · rw [heq, hself, Pc.not_writerAsleep hin] at ht'
      cases ht'
    · rw [hother t' heq] at ht'
      refine (h.writers t' ht').resolve_right ?_
      rintro ⟨t'', hw⟩
      exact absurd ((hnobody t'').symm.trans (Pc.inLock_of_wakesWriters hw)) nofun

omit [DecidableEq T] in
theorem locked {pc : Pc} (h : Inv s) (hpc : s.pc t = pc) (hin : pc.inLock = true) :
    s.lock = some t :=
  (h.lock t).mp (hpc ▸ hin)

omit [DecidableEq T] in
/-- The readers that are asleep have a reason to, if the process that holds the lock wakes up
none. -/
theorem leaveReaders {pc : Pc} (h : Inv s) (ht : s.lock = some t)
    (hw : (s.pc t).wakesReaders = false) (hpc : pc.readerAsleep = false)
    (hsleep : (∃ t', (s.pc t').readerAsleep = true) ∨ pc.readerAsleep = true) :
    s.pipe.isEmpty = true ∧ s.pipe.writeopen = true := by
  obtain ⟨t', ht'⟩ | hself := hsleep
  · exact (h.reader ht ht').resolve_right (by simp [hw])
  · cases hpc.symm.trans hself

omit [DecidableEq T] in
theorem leaveWriters {pc : Pc} (h : Inv s) (ht : s.lock = some t)
    (hw : (s.pc t).wakesWriters = false) (hpc : pc.writerAsleep = false)
    (hsleep : (∃ t', (s.pc t').writerAsleep = true) ∨ pc.writerAsleep = true) :
    s.pipe.isFull = true ∧ s.pipe.readopen = true := by
  obtain ⟨t', ht'⟩ | hself := hsleep
  · exact (h.writer ht ht').resolve_right (by simp [hw])
  · cases hpc.symm.trans hself

section Run

variable (h : Inv s) (hrun : s.run t = some s')

include h hrun

theorem run_writeLoop {rest : Bytes} (hpc : s.pc t = .writeLoop rest) : Inv s' := by
  have ht := h.locked hpc rfl
  cases rest with
  | nil =>
    simp only [State.run, hpc] at hrun
    cases hrun
    exact h.stay ht rfl trivial (fun _ => rfl) (by simp [hpc, Pc.wakesWriters])
  | cons b rest =>
    simp only [State.run, hpc] at hrun
    split_ifs at hrun with hfull
    · cases hrun
      exact h.stay ht rfl hfull (fun _ => rfl) (by simp [hpc, Pc.wakesWriters])
    · -- There is room, so no writer is asleep.
      cases hrun
      refine h.goto ht rfl trivial (fun _ => .inr rfl) fun hw => ?_
      exact absurd (hw.resolve_right (by simp [hpc, Pc.wakesWriters])).1 hfull

theorem run_writeFull {rest : Bytes} (hpc : s.pc t = .writeFull rest)
    (hok : givesUpAlone s (.run t)) : Inv s' := by
  have ht := h.locked hpc rfl
  have hseen := h.seen t
  rw [hpc] at hseen
  simp only [State.run, hpc] at hrun
  split_ifs at hrun with hgives
  · cases hrun
    refine h.leave ht rfl ?_ (h.leaveWriters ht (by rw [hpc]; rfl) rfl)
    rintro (⟨t', ht'⟩ | hself)
    · exact absurd ((hok (by rw [hpc]; rfl) hgives t').symm.trans ht') nofun
    · cases hself
  · cases hrun
    have hopen : s.pipe.readopen = true := by
      simp only [State.givesUp, Bool.or_eq_true, not_or, Bool.not_eq_true',
        Bool.not_eq_false] at hgives
      exact hgives.1
    exact h.stay ht rfl ⟨hseen, hopen⟩ (fun _ => rfl) (by simp [hpc, Pc.wakesWriters])

theorem run_writeSleep {rest : Bytes} (hpc : s.pc t = .writeSleep rest) : Inv s' := by
  have ht := h.locked hpc rfl
  have hseen := h.seen t
  rw [hpc] at hseen
  simp only [State.run, hpc] at hrun
  cases hrun
  exact h.leave ht rfl (h.leaveReaders ht (by rw [hpc]; rfl) rfl) fun _ => hseen

theorem run_readTest {n : ℕ} (hpc : s.pc t = .readTest n) : Inv s' := by
  have ht := h.locked hpc rfl
  simp only [State.run, hpc] at hrun
  split_ifs at hrun with hempty
  · cases hrun
    have hboth : s.pipe.isEmpty = true ∧ s.pipe.writeopen = true := by simpa using hempty
    exact h.stay ht rfl hboth (by simp [hpc, Pc.wakesReaders]) (by simp [hpc, Pc.wakesWriters])
  · cases hrun
    exact h.stay ht rfl trivial (by simp [hpc, Pc.wakesReaders]) fun _ => rfl

theorem run_readEmpty {n : ℕ} (hpc : s.pc t = .readEmpty n) : Inv s' := by
  have ht := h.locked hpc rfl
  have hseen := h.seen t
  rw [hpc] at hseen
  simp only [State.run, hpc] at hrun
  split_ifs at hrun
  all_goals
    cases hrun
    exact h.leave ht rfl (fun _ => hseen) (h.leaveWriters ht (by rw [hpc]; rfl) rfl)

theorem run_readLoop {n : ℕ} (hpc : s.pc t = .readLoop n) : Inv s' := by
  have ht := h.locked hpc rfl
  cases n with
  | zero =>
    simp only [State.run, hpc] at hrun
    cases hrun
    exact h.stay ht rfl trivial (by simp [hpc, Pc.wakesReaders]) fun _ => rfl
  | succ n =>
    simp only [State.run, hpc] at hrun
    split_ifs at hrun with hempty
    · cases hrun
      exact h.stay ht rfl trivial (by simp [hpc, Pc.wakesReaders]) fun _ => rfl
    · -- There is something to read, so no reader is asleep.
      cases hrun
      refine h.goto ht rfl trivial (fun hw => ?_) fun _ => .inr rfl
      exact absurd (hw.resolve_right (by simp [hpc, Pc.wakesReaders])).1 hempty

theorem run_close {writable : Bool} (hpc : s.pc t = .close writable) : Inv s' := by
  have ht := h.locked hpc rfl
  simp only [State.run, hpc] at hrun
  cases hrun
  cases writable with
  | true =>
    exact h.goto ht rfl trivial (fun _ => .inr rfl)
      fun hw => .inl (hw.resolve_right (by simp [hpc, Pc.wakesWriters]))
  | false =>
    exact h.goto ht rfl trivial (fun hw => .inl (hw.resolve_right (by simp [hpc, Pc.wakesReaders])))
      fun _ => .inr rfl

theorem run_release (hpc : s.pc t = .release) : Inv s' := by
  have ht := h.locked hpc rfl
  simp only [State.run, hpc] at hrun
  cases hrun
  have hleave : Inv (s.leave t .idle) :=
    h.leave ht rfl
      (h.leaveReaders ht (by rw [hpc]; rfl) rfl) (h.leaveWriters ht (by rw [hpc]; rfl) rfl)
  exact ⟨hleave.lock, hleave.seen, hleave.readers, hleave.writers⟩

/-- A step of a process, with the lock or without. -/
theorem run (hok : givesUpAlone s (.run t)) : Inv s' := by
  have hseen := h.seen t
  cases hpc : s.pc t with
  | idle | writeAsleep rest | readAsleep n =>
    simp only [State.run, hpc] at hrun
    cases hrun
  | writeAcquire rest | readAcquire n | closeAcquire writable =>
    simp only [State.run, hpc] at hrun
    exact h.acquire (by rfl) (by trivial) hrun
  | writeLoop rest => exact h.run_writeLoop hrun hpc
  | writeFull rest => exact h.run_writeFull hrun hpc hok
  | writeSleep rest => exact h.run_writeSleep hrun hpc
  | readTest n => exact h.run_readTest hrun hpc
  | readEmpty n => exact h.run_readEmpty hrun hpc
  | readLoop n => exact h.run_readLoop hrun hpc
  | close writable => exact h.run_close hrun hpc
  | release => exact h.run_release hrun hpc
  | writeWake rest =>
    rw [hpc] at hseen
    simp only [State.run, hpc] at hrun
    cases hrun
    exact h.wakeRead (h.locked hpc rfl) rfl hseen (by rw [hpc]; rfl)
  | writeEnd =>
    simp only [State.run, hpc] at hrun
    cases hrun
    exact h.wakeRead (h.locked hpc rfl) rfl trivial (by rw [hpc]; rfl)
  | readEnd =>
    simp only [State.run, hpc] at hrun
    cases hrun
    exact h.wakeWrite (h.locked hpc rfl) rfl trivial (by rw [hpc]; rfl)
  | closeWake writable =>
    have ht := h.locked hpc rfl
    cases writable with
    | true =>
      simp only [State.run, hpc] at hrun
      cases hrun
      exact h.wakeRead ht rfl trivial (by rw [hpc]; rfl)
    | false =>
      simp only [State.run, hpc] at hrun
      cases hrun
      exact h.wakeWrite ht rfl trivial (by rw [hpc]; rfl)

end Run

/-- A new call. -/
theorem call {pc : Pc} (h : Inv s) (hout : pc.inLock = false) (hread : pc.readerAsleep = false)
    (hwrite : pc.writerAsleep = false) (hrun : s.call t pc = some s') : Inv s' := by
  unfold State.call at hrun
  split at hrun
  · rename_i hpc
    cases hrun
    exact h.outside (by rw [hpc]; rfl) hout hread hwrite
  · cases hrun

theorem kill (h : Inv s) (t : T) : Inv (s.goto t (s.pc t).wakeRead.wakeWrite) := by
  cases hin : (s.pc t).inLock with
  | true =>
    have hsame : (s.pc t).wakeRead.wakeWrite = s.pc t := by
      cases hpc : s.pc t <;> first | rfl | (rw [hpc] at hin; cases hin)
    rw [hsame, State.goto, update_eq_self]
    exact h
  | false => exact h.outside hin (by simp [hin]) (by simp) (by simp)

theorem step {a : Act T} (h : Inv s) (hok : givesUpAlone s a) (hstep : Wakeup.step s a = some s') :
    Inv s' := by
  cases a with
  | pipewrite t bytes => exact h.call rfl rfl rfl hstep
  | piperead t n => exact h.call rfl rfl rfl hstep
  | pipeclose t writable => exact h.call rfl rfl rfl hstep
  | run t => exact h.run hstep hok
  | kill t =>
    cases hstep
    have hkill := h.kill t
    exact ⟨hkill.lock, hkill.seen, hkill.readers, hkill.writers⟩

omit [DecidableEq T] in
theorem noLostWakeup (h : Inv s) : NoLostWakeup s := by
  have hnobody : s.lock = none → ∀ t, (s.pc t).inLock = false := by
    intro hfree t
    rw [← Bool.not_eq_true, h.lock, hfree]
    nofun
  constructor
  · intro hfree t ht
    refine (h.readers t ht).resolve_right ?_
    rintro ⟨t', hw⟩
    exact absurd ((hnobody hfree t').symm.trans (Pc.inLock_of_wakesReaders hw)) nofun
  · intro hfree t ht
    refine (h.writers t ht).resolve_right ?_
    rintro ⟨t', hw⟩
    exact absurd ((hnobody hfree t').symm.trans (Pc.inLock_of_wakesWriters hw)) nofun

end Inv

theorem inv_init (h : (machine T).init s) : Inv s := by
  obtain ⟨-, -, -, -, hpc, hlock, -⟩ := h
  constructor
  · intro t
    rw [hpc, hlock]
    exact iff_of_false nofun nofun
  · intro t
    rw [hpc]
    trivial
  · intro t ht
    rw [hpc] at ht
    cases ht
  · intro t ht
    rw [hpc] at ht
    cases ht

/-- **No wakeup on a pipe is lost when `pipewrite` gives up alone**: on a full pipe it does so only
when no reader is asleep. -/
theorem no_lost_wakeup (h : (machine T).Reach givesUpAlone s) : NoLostWakeup s := by
  have hinv : Inv s := h.invariant (fun _ => inv_init) fun _ _ _ hinv hok hstep =>
    hinv.step hok hstep
  exact hinv.noLostWakeup

end Machine

/-- The pipe after `pipealloc`, and three processes. -/
def start : State (Fin 3) :=
  { pipe := { readopen := true, writeopen := true, data := fun _ => 0, nread := 0, nwrite := 0 }
    pc := fun _ => .idle, killed := fun _ => false, lock := none, freed := false }

theorem start_init : (machine (Fin 3)).init start := ⟨rfl, rfl, rfl, rfl, fun _ => rfl, rfl, rfl⟩

set_option maxRecDepth 100000 in
/-- A reader sleeps on the empty pipe. A writer of 513 bytes is killed in `pipewrite`, fills the
pipe, and returns: the reader sleeps on a full pipe. -/
theorem reader_left_asleep : ∃ s, (machine (Fin 3)).Reachable s ∧ ¬ NoLostWakeup s := by
  have hrun : ((machine (Fin 3)).exec start
      ([.piperead 0 1, .run 0, .run 0, .run 0, .pipewrite 1 (List.replicate 513 0), .kill 1] ++
        List.replicate 515 (.run 1))).any
      (fun s => s.lock = none ∧ (s.pc 0).readerAsleep = true ∧ s.pipe.isEmpty = false) = true := by
    decide +kernel
  obtain ⟨s, hs, hP⟩ := (Option.any_eq_true _ _).mp hrun
  obtain ⟨hfree, hasleep, hfull⟩ := of_decide_eq_true hP
  refine ⟨s, Machine.reachable_of_exec start_init _ hs, fun h => ?_⟩
  exact absurd (hfull.symm.trans (h.readers hfree 0 hasleep).1) nofun

/-- A reader sleeps on the empty pipe while a writer is about to take the lock. -/
theorem no_lost_wakeup_asleep : ∃ s : State (Fin 3), (machine (Fin 3)).Reach givesUpAlone s ∧
    s.lock = none ∧ (s.pc 0).readerAsleep = true ∧ s.pc 1 = .writeAcquire [7] ∧ NoLostWakeup s := by
  have hrun : (((machine (Fin 3)).restrict fun s a => decide (givesUpAlone s a)).exec start
      [.pipewrite 1 [7], .piperead 0 1, .run 0, .run 0, .run 0]).any
      (fun s => s.lock = none ∧ (s.pc 0).readerAsleep = true ∧ s.pc 1 = .writeAcquire [7]) =
          true := by
    decide +kernel
  obtain ⟨s, hs, hP⟩ := (Option.any_eq_true _ _).mp hrun
  obtain ⟨hfree, hasleep, hwriter⟩ := of_decide_eq_true hP
  have hreach := Machine.reach_of_exec_decide _ givesUpAlone start_init _ hs
  exact ⟨s, hreach, hfree, hasleep, hwriter, no_lost_wakeup hreach⟩

end Dockv6.Wakeup
