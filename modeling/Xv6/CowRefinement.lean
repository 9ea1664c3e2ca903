import Xv6.AddressSpaces

/-! Copy-on-write memory is as good as private memory. -/

namespace Xv6

open StateProg ActionRun

variable {L : Layout} {m m₀ : PhysMem} {s w : KState} {us us' : Users} {ops : List Op} {op : Op}

/-- The process that writes to user memory in this operation, if it is a store or a
`copyout`. -/
def Op.writer : Op → Option (Fin NPROC)
  | .store p _ _ => some p
  | .copyout p _ _ => some p
  | _ => none

theorem Users.step_writer {res : Result} {p q : Fin NPROC} (h : us.step op res = some us')
    (hop : op.writer = some p) (hq : q ≠ p) : us' q = us q := by
  cases op with
  | store r va b =>
    cases hop
    cases res with
    | idle => cases h; rfl
    | done =>
      obtain ⟨u, _, hu⟩ := Option.bind_eq_some_iff.mp h
      obtain ⟨um, _, rfl⟩ := Option.map_eq_some_iff.mp hu
      exact Function.update_of_ne hq ..
    | killed =>
      obtain ⟨u, _, hu⟩ := Option.bind_eq_some_iff.mp h
      split at hu
      · cases hu
        rfl
      · cases hu
    | _ => cases h
  | copyout r va bytes =>
    cases hop
    cases res with
    | idle => cases h; rfl
    | returned ret =>
      obtain ⟨u, _, hu⟩ := Option.bind_eq_some_iff.mp h
      split at hu
      · cases hu
        exact Function.update_of_ne hq ..
      · cases hu
    | _ => cases h
  | _ => cases hop

def CowOk (L : Layout) (x : KState × Option Users) (op : Op) : Prop :=
  BootOk x.1 op ∧ refused L x.1 op = false

instance decidableCowOk (L : Layout) (x : KState × Option Users) (op : Op) : Decidable (CowOk L x op) :=
  inferInstanceAs (Decidable (_ ∧ _))

structure InStep (L : Layout) (x : KState × Option Users) : Prop where
  good : Good L x.1
  users : x.2 = some x.1.users

theorem InStep.lockstep {x y : KState × Option Users} (h : InStep L x) (hok : CowOk L x op)
    (hy : lockstep L x op = .ok y) : InStep L y := by
  rw [Xv6.lockstep] at hy
  rcases h.good.perform op hok.1 with herr | ⟨res, w, hw, hgood, hstep⟩
  · rw [herr] at hy
    cases hy
  · rw [hw] at hy
    cases hy
    refine ⟨hgood, ?_⟩
    rw [h.users, Option.bind_some, hstep hok.2]

/-- In every run in which no handler or `copyout` call on a page that may be written is
refused, the kernel's processes see what those of the reference machine see, and a store or
`copyout` of one process changes nothing that another can read. -/
theorem cow_refines_private_memory {y : KState × Option Users} (hfree : m₀.freelist = [])
    (hm : kinit L m₀ = .ok ((), m))
    (hok : Along (lockstep L) (CowOk L) (KState.start m, some (fun _ => none)) ops)
    (hrun : run (lockstep L) (KState.start m, some (fun _ => none)) ops = .ok y) :
    y.2 = some y.1.users ∧ ∀ op p res w, CowOk L y op → op.writer = some p →
      perform L op y.1 = .ok (res, w) → ∀ q, q ≠ p → w.users q = y.1.users q := by
  have hstart : InStep L (KState.start m, some (fun _ => none)) := ⟨(Good.start hfree hm).1, rfl⟩
  obtain ⟨hgood, heq⟩ := run_inv_along (fun _ _ _ hi hc hs => InStep.lockstep hi hc hs) hstart hok hrun
  refine ⟨heq, fun op p res w hc hop hw q hq => ?_⟩
  rcases hgood.perform op hc.1 with herr | ⟨res', w', hw', _, hstep⟩
  · rw [herr] at hw
    cases hw
  · rw [hw'] at hw
    cases hw
    exact Users.step_writer (hstep hc.2) hop hq

theorem exists_lockstep {t : KState} (h : run (kstep L) s ops = .ok t) (us : Option Users) :
    ∃ us', run (lockstep L) (s, us) ops = .ok (t, us') := by
  induction ops generalizing s us with
  | nil =>
    cases h
    exact ⟨us, rfl⟩
  | cons op ops ih =>
    rw [run, kstep] at h
    rw [run, lockstep]
    cases hs : perform L op s with
    | error e =>
      rw [hs] at h
      cases h
    | ok r =>
      rw [hs] at h
      exact ih h _

theorem cow_refines_private_memory_forkRun : ∃ y,
    run (lockstep smallKernel) (KState.start (booted smallKernel), some (fun _ => none)) forkRun = .ok y ∧
    y.2 = some y.1.users ∧ y.1.HalfShared ∧ (y.1.users 0).bind (·.mem.load 8) = some 0x97 ∧
    (y.1.users 1).bind (·.mem.load 8) = some 7 ∧
    (y.1.users 0).bind (·.mem.load 9) = (y.1.users 1).bind (·.mem.load 9) := by
  have hal : Along (lockstep smallKernel) (CowOk smallKernel)
      (KState.start (booted smallKernel), some (fun _ => none)) forkRun := by decide +kernel
  obtain ⟨s, hrun, hshared, -, -, -, -, -, hfacts⟩ := forked
  obtain ⟨us, hlock⟩ := exists_lockstep hrun (some (fun _ => none))
  exact ⟨(s, us), hlock, (cow_refines_private_memory rfl kinit_booted hal hlock).1, hshared, hfacts⟩

end Xv6
