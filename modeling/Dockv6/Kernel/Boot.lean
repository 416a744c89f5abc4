import Dockv6.Kernel.Fork

/-!
# The state after boot

`userinit` leaves one process, `init`, and tables that nothing has been entered in.
-/

namespace Dockv6

open Kernel

/-- The first process. -/
def Proc.first (page : ℕ) (d : Pgdir) (cwd : Slot) : Proc :=
  { Proc.zero.embryo 1 with
    kstack := some page
    pgdir := some d
    sz := PGSIZE
    tf := { eax := 0, eip := 0, esp := PGSIZE }
    name := safestrcpy Proc.zero.name [105, 110, 105, 116, 99, 111, 100, 101] 16
    cwd := some cwd
    state := .RUNNABLE }

theorem boot_cases {s : Kernel} (h : Boot s) :
    ∃ (b : Machinery) (code : Bytes) (p : PIdx) (page : ℕ) (free : List ℕ) (mem : Mem)
      (d0 d : Pgdir) (m0 m : Kmem) (cwd : Slot) (q : Pqueue) (fs : Fs),
      Taken b.kernel .empty 0 p q mem ∧
      b.km.free = page :: free ∧
      setupkvm [] { b.km with free := free, mem := mem } = .ok (some d0, m0) ∧
      inituvm d0 m0 code = .ok (d, m) ∧
      iget b.fs ROOTINO = .ok (cwd, fs) ∧
      s = { b.kernel with
        proc := Function.update (fun _ => .zero) p (.first page d cwd)
        initproc := some p
        nextpid := 2
        pq := q
        km := m
        fs := fs } := by
  obtain ⟨b, code, h⟩ := h
  obtain ⟨⟨slot, s1⟩, halloc, hrest⟩ := bind_eq_ok.mp h
  obtain ⟨rfl, -, -⟩ | ⟨p, q, mem, htaken, ⟨rfl, -, -⟩ | ⟨page, free, rfl, hfree, rfl⟩⟩ :=
    allocproc_cases halloc
  · cases hrest
  · cases hrest
  obtain ⟨⟨d0, m0⟩, hkvm, hrest2⟩ := bind_eq_ok.mp hrest
  rcases d0 with _ | d0
  · cases hrest2
  obtain ⟨⟨d, m⟩, huvm, hrest3⟩ := bind_eq_ok.mp hrest2
  obtain ⟨⟨cwd, fs⟩, hcwd, hlast⟩ := bind_eq_ok.mp hrest3
  cases hlast
  refine ⟨b, code, p, page, free, mem, d0, d, m0, m, cwd, q, fs, htaken, hfree, hkvm,
    huvm, hcwd, ?_⟩
  simp only [Kernel.setProc, Function.update_idem, Function.update_self]
  rfl

/-! ## A small machine -/

/-- A disk with an empty root directory. -/
def Fs.rootOnly : Fs :=
  { ninodes := 3
    disk := fun n =>
      if n = ROOTINO then { node := .dir [⟨1, [46]⟩, ⟨1, [46, 46]⟩], nlink := 1 }
      else { node := .free, nlink := 0 }
    icache := fun _ => { inum := 0, ref := 0, valid := false } }

/-- A machine with 400 free pages. -/
def Machinery.small : Machinery where
  ptableAddr := 0x80110000
  shmAddr := 0x80120000
  km := { first := 1000, free := List.range' 1000 400, mem := fun _ _ => 0 }
  fs := .rootOnly
  free_nodup := List.nodup_range'
  free_range f hf := by
    obtain ⟨hlo, hhi⟩ := List.mem_range'_1.mp hf
    exact ⟨hlo, hhi.trans (by decide)⟩
  first_pos := by decide
  icache _ := rfl

/-- The kernel of the small machine after boot, with a program of one byte. -/
def smallBoot : Res Kernel := userinit Machinery.small.kernel [7]

theorem boot_of_smallBoot {s : Kernel} (h : smallBoot = .ok s) : Boot s := ⟨_, _, h⟩

/-- The state after the calls, from the boot of the small machine, if each of them passes the test
and is possible. -/
def Kernel.run (test : Kernel → PIdx × Call → Bool) (l : List (PIdx × Call)) : Option Kernel :=
  smallBoot.toOption.bind fun s => (kernelMachine.restrict test).exec s l

/-- A run given as data, of a machine whose states start from the boot of the small machine. -/
theorem exists_of_small {σ α : Type*} {M : Machine σ α} {start : Kernel → σ}
    (hinit : ∀ s, smallBoot = .ok s → M.init (start s)) {ok : σ → α → Prop} {test : σ → α → Bool}
    (hok : ∀ s a, test s a = true → ok s a) {l : List α} {P : σ → Bool}
    (h : (smallBoot.toOption.bind fun s => (M.restrict test).exec (start s) l).any P = true) :
    ∃ s, M.Reach ok s ∧ P s = true := by
  obtain ⟨s, hs, hP⟩ := (Option.any_eq_true P _).mp h
  obtain ⟨s0, hs0, hexec⟩ := Option.bind_eq_some_iff.mp hs
  exact ⟨s, Machine.reach_of_exec_restrict hok (.init (hinit s0 (toOption_eq_some.mp hs0))) l hexec,
    hP⟩

/-- A run given as data, of a machine whose states start from a kernel after boot. -/
theorem exists_of_smallBoot {σ α : Type*} {M : Machine σ α} {start : Kernel → σ}
    (hinit : ∀ s, Boot s → M.init (start s)) {ok : σ → α → Prop} {test : σ → α → Bool}
    (hok : ∀ s a, test s a = true → ok s a) {l : List α} {P : σ → Bool}
    (h : (smallBoot.toOption.bind fun s => (M.restrict test).exec (start s) l).any P = true) :
    ∃ s, M.Reach ok s ∧ P s = true :=
  exists_of_small (fun s hs => hinit s (boot_of_smallBoot hs)) hok h

theorem Kernel.exists_of_run {ok : Kernel → PIdx × Call → Prop} {test : Kernel → PIdx × Call → Bool}
    (hok : ∀ s a, test s a = true → ok s a) {l : List (PIdx × Call)} {P : Kernel → Bool}
    (h : (Kernel.run test l).any P = true) : ∃ s, kernelMachine.Reach ok s ∧ P s = true :=
  exists_of_smallBoot (M := kernelMachine) (fun _ hs => hs) hok h

/-- The state after the actions of a machine, from the boot of the small machine. -/
def bootRun {α : Type*} (M : Machine Kernel α) (l : List α) : Option Kernel :=
  smallBoot.toOption.bind fun s => M.exec s l

/-- A function that returns `b` after a run given as data. -/
theorem exists_of_bootRun {α : Type*} {β : Type} {M : Machine Kernel α}
    (hinit : ∀ s, Boot s → M.init s) {f : Kernel → Res β} {l : List α} {P : Kernel → β → Bool}
    (h : (bootRun M l).any (fun s => (f s).toOption.any (P s)) = true) :
    ∃ s b, M.Reachable s ∧ f s = .ok b ∧ P s b = true := by
  obtain ⟨s, hs, hP⟩ := (Option.any_eq_true _ _).mp h
  obtain ⟨s0, hs0, hexec⟩ := Option.bind_eq_some_iff.mp hs
  obtain ⟨b, hb, hPb⟩ := (Option.any_eq_true _ _).mp hP
  have hboot := boot_of_smallBoot (toOption_eq_some.mp hs0)
  exact ⟨s, b, Machine.reachable_of_exec (hinit s0 hboot) l hexec, toOption_eq_some.mp hb, hPb⟩

end Dockv6
