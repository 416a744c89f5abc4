import Dockv6.Container.Create
import Dockv6.Container.Machine

/-!
# The process limit of a container

The kernel after boot satisfies the invariant of the accounts, and the machine refines the system
that keeps it, however `fork`, `exit`, `wait`, `kill`, `cm_maxproc` and nested creations interleave.
-/

namespace Dockv6

open Kernel

variable {x : Cm}

theorem boot_inv (h : cmMachine.init x) : x.sys.Inv := by
  obtain ⟨hboot, hinside, hlimit, -⟩ := h
  obtain ⟨b, code, p, page, free, mem, d0, d, m0, m, cwd, q, fs, -, -, -, -, -, hk⟩ :=
    boot_cases hboot
  obtain ⟨k, inside, limit, born⟩ := x
  dsimp only at hinside hlimit hk
  subst hinside hlimit hk
  have htask : ∀ q, (Function.update (fun _ => Proc.zero) p (Proc.first page d cwd) q).task =
      if q = p then some (Proc.first page d cwd).toTask else none := by
    intro q
    rw [Function.update_apply]
    split_ifs <;> rfl
  have hfirst : ∀ {q y}, (Function.update (fun _ => Proc.zero) p (Proc.first page d cwd) q).task =
      some y → y = (Proc.first page d cwd).toTask := by
    intro q y hy
    rw [htask] at hy
    split_ifs at hy
    exact (Option.some.inj hy).symm
  exact
    { parent := fun hy hr => by
        obtain rfl := hfirst hy
        cases hr
      init := ⟨p, _, rfl, (htask p).trans (if_pos rfl), rfl, .inl rfl⟩
      inside := nofun
      sole := nofun
      home := fun hy h0 => by
        obtain rfl := hfirst hy
        exact absurd rfl h0
      entered := nofun
      moved := nofun
      fresh := nofun
      unclaimed := fun _ => ⟨rfl, rfl⟩
      ids := fun hc => absurd rfl hc
      inj := fun hc => absurd rfl hc
      room := ⟨Nat.one_pos, (Nat.add_le_add_left (Set.ncard_le_card _) 1).trans (by
        rw [Nat.card_eq_fintype_card, Fintype.card_fin]
        decide)⟩
      quota := nofun }

theorem cmMachine_inv {ok : Cm → CmAct → Prop} (h : cmMachine.Reach ok x) : x.sys.Inv := by
  refine h.invariant (fun _ => boot_inv) fun x y a hinv _ hstep => ?_
  obtain ⟨-, ⟨e, he, -⟩, -⟩ := cmMachine_refines hstep
  exact hinv.step he

/-- The processes in the container, but for its manager while it is inside `cm_create_and_enter`. -/
def Cm.members (x : Cm) (c : CIdx) : Finset PIdx :=
  Finset.univ.filter fun q => x.k.live q ∧
    (x.k.proc q).container_id = (x.k.containers c).container_id ∧
    (x.inside q).map Phase.container ≠ some c

theorem Cm.mem_members {c : CIdx} {q : PIdx} : q ∈ x.members c ↔ x.sys.Member c q := by
  simp only [members, Finset.mem_filter, Finset.mem_univ, true_and]
  constructor
  · rintro ⟨hlive, hid, hman⟩
    refine ⟨(x.k.proc q).toTask, if_neg hlive, hid, ?_⟩
    rintro ⟨ph, hph, rfl⟩
    exact hman (congrArg (Option.map Phase.container) hph)
  · rintro ⟨y, hy, hid, hman⟩
    obtain ⟨hlive, rfl⟩ := Proc.task_eq_some hy
    refine ⟨hlive, hid, fun hmap => ?_⟩
    obtain ⟨ph, hph, hc⟩ := Option.map_eq_some_iff.mp hmap
    exact hman ⟨ph, hph, hc⟩

/-- `init` creates a container with the limit `2`, and the first process in it forks. -/
def twoInContainer : List CmAct :=
  [.create 0 [97] [47] 2, .next 0, .next 0, .next 0, .next 0, .call 1 .fork]

end Dockv6
