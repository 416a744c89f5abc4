import Dockv6.Foundations.Ring
import Dockv6.Foundations.Run
import Dockv6.Kernel.Struct

/-!
# Pipes

`pipewrite` and `piperead` of `pipe.c`, by any number of threads on one pipe. The code between
acquiring `p->lock` and releasing it, or sleeping with it, is one step; a sleeping thread may go on
at any time. `writes`, `stored`, `ended` and `reads` are bookkeeping: the bytes of each `pipewrite`;
the bytes stored, each with its call; the calls that returned `n`; and what each `piperead`
returned.
-/

namespace Dockv6.Fifo

open Function

/-- Bytes in a pipe. -/
abbrev PIPESIZE : ℕ := 512

/-- `struct pipe`. -/
structure Pipe extends Dockv6.Pipe where
  data : ℕ → UInt8
  nread : ℕ
  nwrite : ℕ

namespace Pipe

/-- Is the pipe full? -/
def isFull (p : Pipe) : Bool := p.nwrite == (p.nread + PIPESIZE) % 2 ^ 32

/-- Is the pipe empty? -/
def isEmpty (p : Pipe) : Bool := p.nread == p.nwrite

/-- `p->data[p->nwrite++ % PIPESIZE] = b` -/
def put (p : Pipe) (b : UInt8) : Pipe :=
  { p with data := update p.data (p.nwrite % PIPESIZE) b, nwrite := uinc p.nwrite }

/-- `p->data[p->nread % PIPESIZE]` -/
def front (p : Pipe) : UInt8 := p.data (p.nread % PIPESIZE)

/-- `p->nread++` -/
def next (p : Pipe) : Pipe := { p with nread := uinc p.nread }

/-- `p->nwrite - p->nread` -/
def count (p : Pipe) : ℕ := (p.nwrite + 2 ^ 32 - p.nread) % 2 ^ 32

/-- The bytes in `p->data`, from the one that is read next. -/
def bytes (p : Pipe) : Bytes :=
  (List.range p.count).map fun k => p.data ((p.nread + k) % PIPESIZE)

end Pipe

/-- The loop of `pipewrite` up to where it ends or finds the pipe full: the pipe, and the bytes that
are left. -/
def writeLoop (p : Pipe) : Bytes → Pipe × Bytes
  | [] => (p, [])
  | b :: bs => if p.isFull then (p, b :: bs) else writeLoop (p.put b) bs

/-- The loop of `piperead` for `n` bytes: the pipe, and the bytes read. -/
def readLoop (p : Pipe) : ℕ → Pipe × Bytes
  | 0 => (p, [])
  | n + 1 =>
    if p.isEmpty then (p, [])
    else
      let (p', bs) := readLoop p.next n
      (p', p.front :: bs)

/-! ## The machine -/

/-- Where a thread is. -/
inductive Pc
  | idle
  /-- In the call number `c` of `pipewrite`, with the bytes `rest` to be stored. -/
  | write (c : ℕ) (rest : Bytes)
  /-- In `piperead` for `n` bytes. -/
  | read (n : Int)

/-- The pipe, its threads and what they did. -/
structure State (T : Type*) where
  pipe : Pipe
  pc : T → Pc
  writes : List Bytes
  stored : List (ℕ × UInt8)
  ended : List ℕ
  reads : List Bytes

/-- What may happen. -/
inductive Act (T : Type*)
  /-- The thread calls `pipewrite` with the `n` bytes. -/
  | pipewrite (t : T) (bytes : Bytes)
  /-- The thread calls `piperead` for `n` bytes. -/
  | piperead (t : T) (n : Int)
  /-- The thread takes `p->lock` and runs; `killed` is `myproc()->killed`. -/
  | run (t : T) (killed : Bool)
  /-- `pipeclose` of an end. -/
  | pipeclose (writable : Bool)

section Machine

variable {T : Type*} [DecidableEq T]

namespace State

/-- The thread goes on at `pc`. -/
def setPc (s : State T) (t : T) (pc : Pc) : State T := { s with pc := update s.pc t pc }

/-- What the pipe holds after the thread has stored what it could, and the thread returns or
sleeps. -/
def runWrite (s : State T) (t : T) (c : ℕ) (rest : Bytes) (killed : Bool) : State T :=
  let (p, left) := writeLoop s.pipe rest
  let put := rest.take (rest.length - left.length)
  let s := { s with pipe := p, stored := s.stored ++ put.map (Prod.mk c) }
  if left = [] then { s.setPc t .idle with ended := c :: s.ended }
  else if !p.readopen || killed then s.setPc t .idle
  else s.setPc t (.write c left)

/-- A section of `piperead`. -/
def runRead (s : State T) (t : T) (n : Int) (killed : Bool) : State T :=
  if s.pipe.isEmpty && s.pipe.writeopen then if killed then s.setPc t .idle else s
  else
    let (p, got) := readLoop s.pipe n.toNat
    { s.setPc t .idle with pipe := p, reads := s.reads ++ [got] }

end State

/-- The state after an action. -/
def step (s : State T) : Act T → Option (State T)
  | .pipewrite t bytes =>
    match s.pc t with
    | .idle =>
      some { s.setPc t (.write s.writes.length bytes) with writes := s.writes ++ [bytes] }
    | _ => none
  | .piperead t n =>
    match s.pc t with
    | .idle => some (s.setPc t (.read n))
    | _ => none
  | .run t killed =>
    match s.pc t with
    | .idle => none
    | .write c rest => some (s.runWrite t c rest killed)
    | .read n => some (s.runRead t n killed)
  | .pipeclose true => some { s with pipe := { s.pipe with writeopen := false } }
  | .pipeclose false => some { s with pipe := { s.pipe with readopen := false } }

/-- The pipe as `pipealloc` leaves it, and no call yet. -/
def machine (T : Type*) [DecidableEq T] : Machine (State T) (Act T) where
  init s :=
    s.pipe.nread = 0 ∧ s.pipe.nwrite = 0 ∧ s.pipe.readopen = true ∧ s.pipe.writeopen = true ∧
      (∀ t, s.pc t = .idle) ∧ s.writes = [] ∧ s.stored = [] ∧ s.ended = [] ∧ s.reads = []
  step := step

end Machine

/-! ## The loops -/

/-- After `r` bytes were taken, the pipe holds the bytes `l`. -/
def Pipe.Holds (p : Pipe) (r : ℕ) (l : Bytes) : Prop :=
  Ring.Holds PIPESIZE (2 ^ 32) p.data p.nread p.nwrite r l

section Loops

variable {p p' : Pipe} {r n : ℕ} {l bs left got : Bytes}

theorem Pipe.Holds.isFull_iff (h : p.Holds r l) : p.isFull = true ↔ l.length = PIPESIZE :=
  beq_iff_eq.trans (Ring.Holds.full_iff (by decide) h)

theorem Pipe.Holds.isEmpty_iff (h : p.Holds r l) : p.isEmpty = true ↔ l = [] :=
  beq_iff_eq.trans (Ring.Holds.empty_iff (by decide) h)

theorem Pipe.Holds.count_eq (h : p.Holds r l) : p.count = l.length :=
  Ring.Holds.sub_eq (by decide) h

theorem Pipe.Holds.bytes_eq (h : p.Holds r l) : p.bytes = l := by
  rw [Pipe.bytes, h.count_eq]
  exact Ring.Holds.map_range (by decide) h

theorem Pipe.Holds.put (h : p.Holds r l) (hroom : p.isFull = false) (b : UInt8) :
    (p.put b).Holds r (l ++ [b]) := by
  refine Ring.Holds.put (by decide) h (lt_of_le_of_ne h.length_le fun hfull => ?_)
  rw [h.isFull_iff.mpr hfull] at hroom
  cases hroom

theorem writeLoop_holds (h : p.Holds r l) (hrun : writeLoop p bs = (p', left)) :
    ∃ put, bs = put ++ left ∧ p'.Holds r (l ++ put) := by
  induction bs generalizing p l with
  | nil =>
    cases hrun
    exact ⟨[], rfl, by rwa [List.append_nil]⟩
  | cons b bs ih =>
    rw [writeLoop] at hrun
    split_ifs at hrun with hfull
    · cases hrun
      exact ⟨[], rfl, by rwa [List.append_nil]⟩
    · obtain ⟨put, rfl, hput⟩ := ih (h.put (by simpa using hfull) b) hrun
      refine ⟨b :: put, rfl, ?_⟩
      rwa [List.append_assoc, List.singleton_append] at hput

/-- The bytes that `piperead` takes are the first ones in the pipe. -/
theorem readLoop_holds (h : p.Holds r l) (hrun : readLoop p n = (p', got)) :
    ∃ l', l = got ++ l' ∧ p'.Holds (r + got.length) l' := by
  induction n generalizing p r l got with
  | zero =>
    cases hrun
    exact ⟨l, rfl, h⟩
  | succ n ih =>
    rw [readLoop] at hrun
    split_ifs at hrun with hempty
    · cases hrun
      exact ⟨l, rfl, h⟩
    · cases hrest : readLoop p.next n with
      | mk p1 got1 =>
        rw [hrest] at hrun
        cases hrun
        rcases l with _ | ⟨b, l⟩
        · exact absurd (h.isEmpty_iff.mpr rfl) hempty
        · obtain ⟨hfront, hnext⟩ := Ring.Holds.take (by decide) h
          have hholds : p.next.Holds (r + 1) l := hnext
          obtain ⟨l', rfl, hl'⟩ := ih hholds hrest
          have hb : p.front = b := hfront
          refine ⟨l', by rw [hb]; rfl, ?_⟩
          rwa [List.length_cons, Nat.add_comm got1.length, ← Nat.add_assoc]

end Loops

/-! ## The invariant -/

section Invariant

variable {T : Type*}

/-- The bytes that the call number `c` of `pipewrite` has stored, in this order. -/
def State.storedBy (s : State T) (c : ℕ) : Bytes := (s.stored.filter fun b => b.1 == c).map Prod.snd

/-- What the calls did, and the pipe, agree. -/
structure Inv (s : State T) : Prop where
  /-- The pipe holds what was stored and not taken. -/
  buffer : ∃ l, s.pipe.Holds s.reads.flatten.length l ∧
    s.stored.map Prod.snd = s.reads.flatten ++ l
  /-- A call has stored the first of its bytes, and all of them if it returned `n`. -/
  call : ∀ c bytes, s.writes[c]? = some bytes →
    s.storedBy c <+: bytes ∧ (c ∈ s.ended → s.storedBy c = bytes)
  /-- A call in progress has the rest of its bytes to store. -/
  rest : ∀ t c rest, s.pc t = .write c rest →
    s.writes[c]? = some (s.storedBy c ++ rest) ∧ c ∉ s.ended
  /-- A call is made by one thread. -/
  own : ∀ t t' c rest rest', s.pc t = .write c rest → s.pc t' = .write c rest' → t = t'
  fresh : ∀ b ∈ s.stored, b.1 < s.writes.length
  fresh_ended : ∀ c ∈ s.ended, c < s.writes.length

/-- What a call stores is counted for it and for no other. -/
theorem storedBy_append {s : State T} {c c' : ℕ} {put : Bytes} {s' : State T}
    (hs : s'.stored = s.stored ++ put.map (Prod.mk c)) :
    s'.storedBy c' = if c' = c then s.storedBy c ++ put else s.storedBy c' := by
  unfold State.storedBy
  rw [hs, List.filter_append, List.map_append, List.filter_map]
  have hcomp : ((fun b : ℕ × UInt8 => b.1 == c') ∘ Prod.mk c) = fun _ => c == c' := rfl
  rw [hcomp]
  by_cases hc : c' = c
  · subst hc
    simp [comp_def]
  · have hne : (c == c') = false := beq_eq_false_iff_ne.mpr fun h => hc h.symm
    simp [hne, hc]

variable [DecidableEq T] {s s' : State T} {t : T} {killed : Bool}

/-- A thread that is in no call of `pipewrite` now. -/
theorem Inv.setPc {pc : Pc} (h : Inv s) (hpc : ∀ c rest, pc ≠ .write c rest) :
    Inv (s.setPc t pc) := by
  have hold : ∀ t' c rest, (s.setPc t pc).pc t' = .write c rest → s.pc t' = .write c rest := by
    intro t' c rest ht'
    have hupdate : update s.pc t pc t' = .write c rest := ht'
    rw [update_apply] at hupdate
    split_ifs at hupdate
    · exact absurd hupdate (hpc c rest)
    · exact hupdate
  exact ⟨h.buffer, h.call, fun t' c rest ht' => h.rest t' c rest (hold t' c rest ht'),
    fun t1 t2 c r1 r2 h1 h2 => h.own t1 t2 c r1 r2 (hold t1 c r1 h1) (hold t2 c r2 h2), h.fresh,
    h.fresh_ended⟩

/-- A new call. -/
theorem Inv.pipewrite (h : Inv s) (ht : s.pc t = .idle) (bytes : Bytes) :
    Inv { s.setPc t (.write s.writes.length bytes) with writes := s.writes ++ [bytes] } := by
  have hnone : s.storedBy s.writes.length = [] := by
    unfold State.storedBy
    rw [List.map_eq_nil_iff, List.filter_eq_nil_iff]
    intro b hb
    simpa using (h.fresh b hb).ne
  have hlt : ∀ {c x}, s.writes[c]? = some x → c < s.writes.length := fun hc =>
    (List.getElem?_eq_some_iff.mp hc).1
  have hwrites : ∀ {c x}, (s.writes ++ [bytes])[c]? = some x →
      s.writes[c]? = some x ∨ c = s.writes.length ∧ x = bytes := by
    intro c x hc
    rw [List.getElem?_append] at hc
    split_ifs at hc with hcl
    · exact .inl hc
    · rw [List.getElem?_singleton] at hc
      split_ifs at hc
      exact .inr ⟨by omega, (Option.some.inj hc).symm⟩
  have hpc : ∀ {t' c rest}, update s.pc t (.write s.writes.length bytes) t' = .write c rest →
      (t' = t ∧ c = s.writes.length ∧ rest = bytes) ∨ s.pc t' = .write c rest := by
    intro t' c rest ht'
    rw [update_apply] at ht'
    split_ifs at ht' with heq
    · cases ht'
      exact .inl ⟨heq, rfl, rfl⟩
    · exact .inr ht'
  refine ⟨h.buffer, fun c x hc => ?_, fun t' c rest ht' => ?_, fun t1 t2 c r1 r2 h1 h2 => ?_,
    fun b hb => ?_, fun c hc => ?_⟩
  · obtain hc | ⟨rfl, rfl⟩ := hwrites hc
    · exact h.call c x hc
    · refine ⟨?_, fun hended => absurd (h.fresh_ended _ hended) (Nat.lt_irrefl _)⟩
      show s.storedBy s.writes.length <+: x
      rw [hnone]
      exact List.nil_prefix
  · obtain ⟨rfl, rfl, rfl⟩ | hold := hpc ht'
    · refine ⟨?_, fun hended => absurd (h.fresh_ended _ hended) (Nat.lt_irrefl _)⟩
      show (s.writes ++ [rest])[s.writes.length]? = some (s.storedBy s.writes.length ++ rest)
      rw [hnone, List.getElem?_concat_length, List.nil_append]
    · obtain ⟨hc, hended⟩ := h.rest t' c rest hold
      exact ⟨(List.getElem?_append_left (hlt hc)).trans hc, hended⟩
  · obtain ⟨ht1, hc1, -⟩ | hold1 := hpc h1
    · obtain ⟨ht2, -, -⟩ | hold2 := hpc h2
      · rw [ht1, ht2]
      · exact absurd (hlt (h.rest t2 c r2 hold2).1) (by omega)
    · obtain ⟨-, hc2, -⟩ | hold2 := hpc h2
      · exact absurd (hlt (h.rest t1 c r1 hold1).1) (by omega)
      · exact h.own t1 t2 c r1 r2 hold1 hold2
  · rw [List.length_append]
    exact Nat.lt_add_right _ (h.fresh b hb)
  · rw [List.length_append]
    exact Nat.lt_add_right _ (h.fresh_ended c hc)

/-- The thread `t` has stored the bytes `put` of its call, and has the bytes `left` to store. -/
theorem Inv.store {c : ℕ} {put left : Bytes} {p : Pipe} (h : Inv s)
    (ht : s.pc t = .write c (put ++ left))
    (hp : ∀ l, s.pipe.Holds s.reads.flatten.length l → p.Holds s.reads.flatten.length (l ++ put)) :
    Inv { s.setPc t (.write c left) with
      pipe := p, stored := s.stored ++ put.map (Prod.mk c) } := by
  obtain ⟨hc, hended⟩ := h.rest t c _ ht
  let s1 : State T :=
    { s.setPc t (.write c left) with pipe := p, stored := s.stored ++ put.map (Prod.mk c) }
  have hby : ∀ c', s1.storedBy c' = if c' = c then s.storedBy c ++ put else s.storedBy c' :=
    fun c' => storedBy_append rfl
  refine ⟨?_, fun c' x hc' => ?_, fun t' c' rest ht' => ?_, fun t1 t2 c' r1 r2 h1 h2 => ?_,
    fun b hb => ?_, h.fresh_ended⟩
  · obtain ⟨l, hl, hstored⟩ := h.buffer
    refine ⟨l ++ put, hp l hl, ?_⟩
    show (s.stored ++ put.map (Prod.mk c)).map Prod.snd = s.reads.flatten ++ (l ++ put)
    rw [List.map_append, hstored, List.map_map, List.append_assoc]
    have hid : (Prod.snd ∘ Prod.mk c : UInt8 → UInt8) = id := rfl
    rw [hid, List.map_id]
  · rw [hby]
    split_ifs with hcc
    · subst hcc
      cases hc.symm.trans hc'
      rw [← List.append_assoc]
      exact ⟨List.prefix_append _ _, fun hmem => absurd hmem hended⟩
    · exact h.call c' x hc'
  · have hpc : update s.pc t (.write c left) t' = .write c' rest := ht'
    rw [update_apply] at hpc
    rw [hby]
    split_ifs at hpc with heq
    · cases hpc
      rw [if_pos rfl, List.append_assoc]
      exact ⟨hc, hended⟩
    · rw [if_neg]
      · exact h.rest t' c' rest hpc
      · rintro rfl
        exact heq (h.own t' t c' _ _ hpc ht)
  · have hcase : ∀ {t' r}, update s.pc t (.write c left) t' = .write c' r →
        ∃ r', s.pc t' = .write c' r' := by
      intro t' r hr
      rw [update_apply] at hr
      split_ifs at hr with heq
      · cases hr
        exact ⟨_, heq ▸ ht⟩
      · exact ⟨r, hr⟩
    obtain ⟨r1', h1⟩ := hcase h1
    obtain ⟨r2', h2⟩ := hcase h2
    exact h.own t1 t2 c' r1' r2' h1 h2
  · obtain hb | hb := List.mem_append.mp hb
    · exact h.fresh b hb
    · obtain ⟨x, -, rfl⟩ := List.mem_map.mp hb
      exact (List.getElem?_eq_some_iff.mp hc).1

theorem Inv.runWrite {c : ℕ} {rest : Bytes} (h : Inv s) (ht : s.pc t = .write c rest) :
    Inv (s.runWrite t c rest killed) := by
  unfold State.runWrite
  cases hrun : writeLoop s.pipe rest with
  | mk p left =>
    obtain ⟨l, hl, -⟩ := h.buffer
    obtain ⟨put, rfl, -⟩ := writeLoop_holds hl hrun
    have htake : (put ++ left).take ((put ++ left).length - left.length) = put := by
      rw [List.length_append, Nat.add_sub_cancel, List.take_left]
    have hstore := h.store ht fun l hl => by
      obtain ⟨put', heq, hput⟩ := writeLoop_holds hl hrun
      rwa [List.append_cancel_right heq]
    dsimp only
    rw [htake]
    -- The thread goes on, or has returned.
    have hidle : Inv { s.setPc t .idle with
        pipe := p, stored := s.stored ++ put.map (Prod.mk c) } := by
      have hset := Inv.setPc (t := t) hstore
        (fun c' rest (heq : Pc.idle = .write c' rest) => nomatch heq)
      unfold State.setPc at hset
      dsimp only at hset
      rwa [update_idem] at hset
    split_ifs with hleft
    · subst hleft
      obtain ⟨hc, hended⟩ := hstore.rest t c [] (update_self ..)
      rw [List.append_nil] at hc
      refine ⟨hidle.buffer, fun c' x hc' => ⟨(hidle.call c' x hc').1, fun hmem => ?_⟩,
        fun t' c' r ht' => ?_, hidle.own, hidle.fresh, fun c' hc' => ?_⟩
      · obtain rfl | hmem := List.mem_cons.mp hmem
        · exact Option.some.inj (hc.symm.trans hc')
        · exact (hidle.call c' x hc').2 hmem
      · obtain ⟨hr, hne⟩ := hidle.rest t' c' r ht'
        refine ⟨hr, fun hmem => ?_⟩
        obtain rfl | hmem := List.mem_cons.mp hmem
        · -- Another thread in the same call is the same thread, which is idle now.
          have hpc : update s.pc t .idle t' = .write c' r := ht'
          rw [update_apply] at hpc
          split_ifs at hpc with heq
          exact heq (h.own t' t c' r _ hpc ht)
        · exact hne hmem
      · obtain rfl | hc' := List.mem_cons.mp hc'
        · exact (List.getElem?_eq_some_iff.mp hc).1
        · exact hidle.fresh_ended c' hc'
    · exact hidle
    · exact hstore

theorem Inv.runRead {n : Int} (h : Inv s) : Inv (s.runRead t n killed) := by
  unfold State.runRead
  split_ifs
  · exact h.setPc nofun
  · exact h
  · cases hrun : readLoop s.pipe n.toNat with
    | mk p got =>
      have hidle : Inv (s.setPc t .idle) := h.setPc nofun
      obtain ⟨l, hl, hstored⟩ := h.buffer
      obtain ⟨l', rfl, hl'⟩ := readLoop_holds hl hrun
      have hflat : (s.reads ++ [got]).flatten = s.reads.flatten ++ got := by simp
      refine ⟨⟨l', ?_, ?_⟩, hidle.call, hidle.rest, hidle.own, hidle.fresh, hidle.fresh_ended⟩
      · show p.Holds (s.reads ++ [got]).flatten.length l'
        rwa [hflat, List.length_append]
      · show s.stored.map Prod.snd = (s.reads ++ [got]).flatten ++ l'
        rw [hflat, hstored, List.append_assoc]

theorem Inv.step {a : Act T} (h : Inv s) (hstep : step s a = some s') : Inv s' := by
  cases a with
  | pipewrite t bytes =>
    rw [Fifo.step] at hstep
    split at hstep
    · rename_i ht
      cases hstep
      exact h.pipewrite ht bytes
    · cases hstep
  | piperead t n =>
    rw [Fifo.step] at hstep
    split at hstep
    · cases hstep
      exact h.setPc nofun
    · cases hstep
  | run t killed =>
    rw [Fifo.step] at hstep
    split at hstep
    · cases hstep
    · rename_i c rest ht
      cases hstep
      exact h.runWrite ht
    · cases hstep
      exact h.runRead
  | pipeclose writable =>
    cases writable <;>
    · cases hstep
      exact ⟨h.buffer, h.call, h.rest, h.own, h.fresh, h.fresh_ended⟩

theorem inv_init (h : (machine T).init s) : Inv s := by
  obtain ⟨hread, hwrite, -, -, hpc, hwrites, hstored, hended, hreads⟩ := h
  refine ⟨⟨[], ?_, ?_⟩, fun c bytes hc => ?_, fun t c rest ht => ?_, fun t t' c rest rest' ht => ?_,
    fun b hb => ?_, fun c hc => ?_⟩
  · rw [Pipe.Holds, hread, hwrite, hreads]
    exact .nil ..
  · rw [hstored, hreads]
    rfl
  · rw [hwrites] at hc
    cases hc
  · cases (hpc t).symm.trans ht
  · cases (hpc t).symm.trans ht
  · rw [hstored] at hb
    cases hb
  · rw [hended] at hc
    cases hc

/-- **Pipes are queues.** The difference of the counters is at most `PIPESIZE`; what was stored is
what was read, in this order, and then the bytes in the pipe; and what each `pipewrite` stored is a
prefix of its bytes, and all of them if it returned `n`. -/
theorem pipe_fifo (h : (machine T).Reachable s) :
    s.pipe.count ≤ PIPESIZE ∧
      s.stored.map Prod.snd = s.reads.flatten ++ s.pipe.bytes ∧
      s.reads.flatten <+: s.stored.map Prod.snd ∧
      ∀ c bytes, s.writes[c]? = some bytes →
        s.storedBy c <+: bytes ∧ (c ∈ s.ended → s.storedBy c = bytes) := by
  have hinv : Inv s := Machine.Reach.invariant h (fun _ => inv_init) fun _ _ _ hinv _ hstep =>
    hinv.step hstep
  obtain ⟨l, hl, hstored⟩ := hinv.buffer
  refine ⟨?_, ?_, ?_, hinv.call⟩
  · rw [hl.count_eq]
    exact hl.length_le
  · rw [hstored, hl.bytes_eq]
  · rw [hstored]
    exact List.prefix_append _ _

end Invariant

/-- Two threads: one stores three bytes, and the other reads two. -/
theorem pipe_fifo_two_threads : ∃ s : State Bool, (machine Bool).Reachable s ∧
    s.writes = [[1, 2, 3]] ∧ s.ended = [0] ∧ s.reads = [[1, 2]] ∧ s.pipe.bytes = [3] ∧
    s.stored.map Prod.snd = s.reads.flatten ++ s.pipe.bytes ∧ s.storedBy 0 = [1, 2, 3] := by
  let s0 : State Bool := {
    pipe := { readopen := true, writeopen := true, data := fun _ => 0, nread := 0, nwrite := 0 }
    pc := fun _ => .idle, writes := [], stored := [], ended := [], reads := [] }
  have hrun : ((machine Bool).exec s0
      [.piperead true 2, .pipewrite false [1, 2, 3], .run false false, .run true false]).any
      (fun s => s.writes = [[1, 2, 3]] ∧ s.ended = [0] ∧ s.reads = [[1, 2]] ∧ s.pipe.bytes = [3]) =
        true := by
    decide +kernel
  obtain ⟨s, hs, hP⟩ := (Option.any_eq_true _ _).mp hrun
  obtain ⟨hwrites, hended, hreads, hbytes⟩ := of_decide_eq_true hP
  have hreach : (machine Bool).Reachable s :=
    Machine.reachable_of_exec ⟨rfl, rfl, rfl, rfl, fun _ => rfl, rfl, rfl, rfl, rfl⟩ _ hs
  obtain ⟨-, hstored, -, hcall⟩ := pipe_fifo hreach
  have hall := (hcall 0 [1, 2, 3] (by rw [hwrites]; rfl)).2 (by rw [hended]; decide)
  exact ⟨s, hreach, hwrites, hended, hreads, hbytes, hstored, hall⟩

end Dockv6.Fifo
