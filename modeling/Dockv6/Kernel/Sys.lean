import Dockv6.Foundations.Triple
import Dockv6.Kernel.Exec

/-!
# System calls and their arguments

The functions behind a system call are written in the monad `Sys`, whose state has, next to the
kernel, a record that no function reads: the calls of `begin_op` and `end_op`, and which pages
became pipes and were freed. `argint`, `argptr`, `argstr` and `argfd` fetch the arguments from the
user stack; they return nothing where the C function returns `-1`.
-/

namespace Dockv6

open Kernel

/-- The kernel, and the record of what was done. -/
structure Ledger where
  s : Kernel
  /-- Calls of `begin_op` and of `end_op`. -/
  begun : ℕ
  ended : ℕ
  /-- Pages that `pipealloc` made a pipe of, and pages that `pipeclose` freed. -/
  made : List ℕ
  freed : List ℕ

/-- A kernel with nothing recorded. -/
def Ledger.start (s : Kernel) : Ledger :=
  { s := s, begun := 0, ended := 0, made := [], freed := [] }

/-- Computations of the kernel. -/
abbrev Sys := StateT Ledger (Except Stop)

namespace Sys

/-- Run a function of the kernel. -/
def kernel {α : Type} (f : Kernel → Res (α × Kernel)) : Sys α := fun c => do
  let (a, s) ← f c.s
  return (a, { c with s := s })

/-- Run a function of the kernel that returns nothing else. -/
abbrev act (f : Kernel → Res Kernel) : Sys Unit :=
  kernel fun s => do
    let s ← f s
    return ((), s)

/-- Look at the kernel. -/
abbrev look {α : Type} (f : Kernel → Res α) : Sys α :=
  kernel fun s => do
    let a ← f s
    return (a, s)

/-- Change the kernel. -/
abbrev change (f : Kernel → Kernel) : Sys Unit := kernel fun s => .ok ((), f s)

/-- Run a function of the file system. -/
abbrev onFs {α : Type} (f : Fs → Res (α × Fs)) : Sys α :=
  kernel fun s => do
    let (a, fs) ← f s.fs
    return (a, { s with fs := fs })

/-- Run a function of the file system that returns nothing else. -/
abbrev actFs (f : Fs → Res Fs) : Sys Unit :=
  kernel fun s => do
    let fs ← f s.fs
    return ((), { s with fs := fs })

/-- Change the process. -/
abbrev setProc (p : PIdx) (f : Proc → Proc) : Sys Unit := change fun s => s.setProc p (f (s.proc p))

/-- A transaction begins. -/
def beginOp : Sys Unit := fun c => .ok ((), { c with begun := c.begun + 1 })

/-- A transaction ends. -/
def endOp : Sys Unit := fun c => .ok ((), { c with ended := c.ended + 1 })

end Sys

/-! ## Arguments -/

/-- The `int` with the bits of a `uint`. -/
def toint (w : ℕ) : Int := if w < 2 ^ 31 then w else (w : Int) - 2 ^ 32

/-- The page directory of the running process. -/
def Kernel.dir (s : Kernel) (p : PIdx) : Res Pgdir :=
  match (s.proc p).pgdir with
  | none => .error .undefined
  | some d => .ok d

/-- Fetch the word at `addr` from the process. -/
def fetchint (s : Kernel) (p : PIdx) (addr : ℕ) : Res (Option ℕ) :=
  if (s.proc p).sz ≤ addr ∨ (s.proc p).sz < (addr + 4) % 2 ^ 32 then .ok none
  else do
    let d ← s.dir p
    let w ← uword d s.km.mem addr
    return some w

/-- The loop of `fetchstr`, with `n` bytes to go to the end of the process. -/
def fetchRounds (d : Pgdir) (mem : Mem) : ℕ → ℕ → Res (Option Bytes)
  | 0, _ => .ok none
  | n + 1, addr =>
    match uread d mem addr with
    | none => .error (.panic "trap")
    | some b =>
      if b = 0 then .ok (some [])
      else do
        let rest ← fetchRounds d mem n (addr + 1)
        return rest.map (b :: ·)

/-- Fetch the nul-terminated string at `addr` from the process. -/
def fetchstr (s : Kernel) (p : PIdx) (addr : ℕ) : Res (Option Bytes) :=
  if (s.proc p).sz ≤ addr then .ok none
  else do
    let d ← s.dir p
    fetchRounds d s.km.mem ((s.proc p).sz - addr) addr

/-- Fetch the `n`th word of the arguments. -/
def argword (s : Kernel) (p : PIdx) (n : ℕ) : Res (Option ℕ) :=
  fetchint s p (((s.proc p).tf.esp + 4 + 4 * n) % 2 ^ 32)

/-- Fetch the `n`th argument as a number. -/
def argint (s : Kernel) (p : PIdx) (n : ℕ) : Res (Option Int) := do
  let w ← argword s p n
  return w.map toint

/-- Fetch the `n`th argument as a pointer to `size` bytes. -/
def argptr (s : Kernel) (p : PIdx) (n : ℕ) (size : Int) : Res (Option ℕ) := do
  let w ← argword s p n
  match w with
  | none => return none
  | some i =>
    if size < 0 ∨ (s.proc p).sz ≤ i ∨ (s.proc p).sz < (i + size.toNat) % 2 ^ 32 then return none
    else return some i

/-- Fetch the `n`th argument as a string. -/
def argstr (s : Kernel) (p : PIdx) (n : ℕ) : Res (Option Bytes) := do
  let w ← argword s p n
  match w with
  | none => return none
  | some addr => fetchstr s p addr

/-- Fetch the `n`th argument as a descriptor, with its file. -/
def argfd (s : Kernel) (p : PIdx) (n : ℕ) : Res (Option (Fin NOFILE × FIdx)) := do
  let i ← argint s p n
  match i with
  | none => return none
  | some fd =>
    if h : 0 ≤ fd ∧ fd.toNat < NOFILE then
      return ((s.proc p).ofile ⟨fd.toNat, h.2⟩).map fun f => (⟨fd.toNat, h.2⟩, f)
    else return none

/-! ## Rules -/

namespace Ledger

/-- The transactions that were begun and not ended. -/
def outstanding (c : Ledger) : ℤ := c.begun - c.ended

end Ledger

namespace Sys

variable {α : Type}

theorem kernel_eq_ok {f : Kernel → Res (α × Kernel)} {c c' : Ledger} {a : α} :
    kernel f c = .ok (a, c') ↔ ∃ s, f c.s = .ok (a, s) ∧ c' = { c with s := s } := by
  constructor
  · intro h
    obtain ⟨⟨b, s⟩, hf, hret⟩ := bind_eq_ok.mp h
    cases hret
    exact ⟨s, hf, rfl⟩
  · rintro ⟨s, hf, rfl⟩
    exact bind_eq_ok.mpr ⟨(a, s), hf, rfl⟩

theorem act_eq_ok {f : Kernel → Res Kernel} {c c' : Ledger} {u : Unit} :
    act f c = .ok (u, c') ↔ ∃ s, f c.s = .ok s ∧ c' = { c with s := s } := by
  rw [kernel_eq_ok]
  constructor
  · rintro ⟨s, hf, rfl⟩
    obtain ⟨s', hf', hret⟩ := bind_eq_ok.mp hf
    cases hret
    exact ⟨s, hf', rfl⟩
  · rintro ⟨s, hf, rfl⟩
    exact ⟨s, bind_eq_ok.mpr ⟨s, hf, rfl⟩, rfl⟩

theorem look_eq_ok {f : Kernel → Res α} {c c' : Ledger} {a : α} :
    look f c = .ok (a, c') ↔ f c.s = .ok a ∧ c' = c := by
  rw [kernel_eq_ok]
  constructor
  · rintro ⟨s, hf, rfl⟩
    obtain ⟨b, hf', hret⟩ := bind_eq_ok.mp hf
    cases hret
    exact ⟨hf', rfl⟩
  · rintro ⟨hf, rfl⟩
    exact ⟨c'.s, bind_eq_ok.mpr ⟨a, hf, rfl⟩, rfl⟩

theorem onFs_eq_ok {f : Fs → Res (α × Fs)} {c c' : Ledger} {a : α} :
    onFs f c = .ok (a, c') ↔
      ∃ fs, f c.s.fs = .ok (a, fs) ∧ c' = { c with s := { c.s with fs := fs } } := by
  rw [kernel_eq_ok]
  constructor
  · rintro ⟨s, hf, rfl⟩
    obtain ⟨⟨b, fs⟩, hf', hret⟩ := bind_eq_ok.mp hf
    cases hret
    exact ⟨fs, hf', rfl⟩
  · rintro ⟨fs, hf, rfl⟩
    exact ⟨_, bind_eq_ok.mpr ⟨(a, fs), hf, rfl⟩, rfl⟩

theorem actFs_eq_ok {f : Fs → Res Fs} {c c' : Ledger} {u : Unit} :
    actFs f c = .ok (u, c') ↔
      ∃ fs, f c.s.fs = .ok fs ∧ c' = { c with s := { c.s with fs := fs } } := by
  rw [kernel_eq_ok]
  constructor
  · rintro ⟨s, hf, rfl⟩
    obtain ⟨fs, hf', hret⟩ := bind_eq_ok.mp hf
    cases hret
    exact ⟨fs, hf', rfl⟩
  · rintro ⟨fs, hf, rfl⟩
    exact ⟨_, bind_eq_ok.mpr ⟨fs, hf, rfl⟩, rfl⟩

section Triples

variable {P : Ledger → Prop} {Q : α → Ledger → Prop}

theorem triple_kernel {f : Kernel → Res (α × Kernel)}
    (h : ∀ c a s, f c.s = .ok (a, s) → P c → Q a { c with s := s }) : Triple P (kernel f) Q := by
  rintro c a c' hrun hc
  obtain ⟨s, hf, rfl⟩ := kernel_eq_ok.mp hrun
  exact h c a s hf hc

theorem triple_act {f : Kernel → Res Kernel} {Q : Unit → Ledger → Prop}
    (h : ∀ c s, f c.s = .ok s → P c → Q () { c with s := s }) : Triple P (act f) Q := by
  rintro c u c' hrun hc
  obtain ⟨s, hf, rfl⟩ := act_eq_ok.mp hrun
  exact h c s hf hc

theorem triple_change {f : Kernel → Kernel} {Q : Unit → Ledger → Prop}
    (h : ∀ c, P c → Q () { c with s := f c.s }) : Triple P (change f) Q := by
  rintro c u c' hrun hc
  cases hrun
  exact h c hc

/-- What was seen holds of the kernel. -/
theorem triple_look {f : Kernel → Res α} :
    Triple P (look f) fun a c => f c.s = .ok a ∧ P c := by
  rintro c a c' hrun hc
  obtain ⟨hf, rfl⟩ := look_eq_ok.mp hrun
  exact ⟨hf, hc⟩

theorem triple_onFs {f : Fs → Res (α × Fs)}
    (h : ∀ c a fs, f c.s.fs = .ok (a, fs) → P c → Q a { c with s := { c.s with fs := fs } }) :
    Triple P (onFs f) Q := by
  rintro c a c' hrun hc
  obtain ⟨fs, hf, rfl⟩ := onFs_eq_ok.mp hrun
  exact h c a fs hf hc

theorem triple_actFs {f : Fs → Res Fs} {Q : Unit → Ledger → Prop}
    (h : ∀ c fs, f c.s.fs = .ok fs → P c → Q () { c with s := { c.s with fs := fs } }) :
    Triple P (actFs f) Q := by
  rintro c u c' hrun hc
  obtain ⟨fs, hf, rfl⟩ := actFs_eq_ok.mp hrun
  exact h c fs hf hc

end Triples

theorem adds_kernel (f : Kernel → Res (α × Kernel)) : Adds Ledger.outstanding 0 (kernel f) := by
  rintro c a c' h
  obtain ⟨s, -, rfl⟩ := kernel_eq_ok.mp h
  exact (Int.add_zero _).symm

theorem adds_beginOp : Adds Ledger.outstanding 1 beginOp := by
  rintro c a c' h
  cases h
  simp only [Ledger.outstanding]
  omega

theorem adds_endOp : Adds Ledger.outstanding (-1) endOp := by
  rintro c a c' h
  cases h
  simp only [Ledger.outstanding]
  omega

end Sys

end Dockv6
