import Mathlib.Algebra.BigOperators.Ring.Finset
import Xv6.AddressSpaces

/-! The reference counters of pages count exactly the uses of them. -/

namespace Xv6

open StateProg ActionRun

def KState.leaves (s : KState) (p : Fin NPROC) (x : Nat) : Finset Nat :=
  (Finset.range userTop).filter fun v => (s.pte p v).has PTE_V = true ∧ pte2pa (s.pte p v) = x

def KState.KernelOwned (s : KState) (x : Nat) : Prop :=
  x ∈ s.kpages ∨ (∃ p, (s.proc p).trapframe = some x) ∨
    ∃ p root, (s.proc p).pagetable = some root ∧ TablePage s.mem root x

open Classical in
noncomputable def KState.kernelCount (s : KState) (x : Nat) : Nat := if s.KernelOwned x then 1 else 0

variable {L : Layout} {m m₀ : PhysMem} {s : KState} {σ : Space Key} {p : Fin NPROC} {t : Table}
  {x v : Nat} {ops : List Op}

namespace Procs

theorem mem_leaves (h : Procs L s σ) (ht : σ.table (some p) = some t) :
    v ∈ s.leaves p x ↔ t.MapsAt v x := by
  rw [KState.leaves, Finset.mem_filter, Finset.mem_range, h.pte_some ht]
  exact Iff.rfl

theorem leaves_none (h : σ.table (some p) = none) (hp : Procs L s σ) : s.leaves p x = ∅ := by
  have hpt : (s.proc p).pagetable = none := by
    have hh := hp.table p
    rwa [h] at hh
  rw [Finset.eq_empty_iff_forall_notMem]
  intro v hv
  rw [KState.leaves, Finset.mem_filter, KState.pte, hpt] at hv
  have hzero : (0 : Pte).has PTE_V = true := hv.2.1
  exact absurd hzero (by decide)

open Classical in
theorem card_leaves (h : Procs L s σ) (hnot : ∀ t, σ.table (some p) = some t → ¬ t.Has x) :
    (s.leaves p x).card = if σ.UsedBy x (some p) then 1 else 0 := by
  cases ht : σ.table (some p) with
  | none =>
    have hun : ¬ σ.UsedBy x (some p) := by
      rintro ⟨t, ht', _⟩
      rw [ht] at ht'
      cases ht'
    rw [leaves_none ht h, if_neg hun, Finset.card_empty]
  | some t =>
    by_cases hm : t.Maps x
    · obtain ⟨v, hv⟩ := hm
      rw [if_pos ⟨t, ht, .inr ⟨v, hv⟩⟩, Finset.card_eq_one]
      refine ⟨v, Finset.eq_singleton_iff_unique_mem.mpr ⟨(h.mem_leaves ht).mpr hv, fun w hw => ?_⟩⟩
      exact (h.tableInv ht).fits.inj w v x ((h.mem_leaves ht).mp hw) hv
    · have hun : ¬ σ.UsedBy x (some p) := by
        rintro ⟨t', ht', hu⟩
        rw [ht, Option.some.injEq] at ht'
        subst ht'
        exact hu.elim (hnot t ht) hm
      rw [if_neg hun, Finset.card_eq_zero, Finset.eq_empty_iff_forall_notMem]
      intro v hv
      exact hm ⟨v, (h.mem_leaves ht).mp hv⟩

theorem kernelOwned_iff (h : Procs L s σ) :
    s.KernelOwned x ↔ x ∈ σ.kernel ∨ ∃ p t, σ.table (some p) = some t ∧ t.Has x := by
  rw [KState.KernelOwned, ← or_assoc, ← h.kernel]
  refine or_congr Iff.rfl ⟨?_, ?_⟩
  · rintro ⟨p, root, hroot, hx⟩
    obtain ⟨t, ht, rfl, _⟩ := h.exists_table hroot
    exact ⟨p, t, ht, (h.tableInv ht).rep.tablePage_iff.mp hx⟩
  · rintro ⟨p, t, ht, hx⟩
    exact ⟨p, t.root, (h.holds ht).1, (h.tableInv ht).rep.tablePage_iff.mpr hx⟩

theorem leaves_kernelOwned (h : Procs L s σ) (hx : s.KernelOwned x) (p : Fin NPROC) : s.leaves p x = ∅ := by
  cases ht : σ.table (some p) with
  | none => exact leaves_none ht h
  | some t =>
    rw [Finset.eq_empty_iff_forall_notMem]
    intro v hv
    have hm := (h.mem_leaves ht).mp hv
    rcases h.kernelOwned_iff.mp hx with hker | ⟨q, u, hu, hhas⟩
    · exact h.space.not_used_of_kernel hker (some p) ⟨t, ht, .inr ⟨v, hm⟩⟩
    · by_cases he : q = p
      · subst q
        rw [ht, Option.some.injEq] at hu
        subst hu
        exact (h.tableInv ht).fits.apart x hhas ⟨v, hm⟩
      · have hsole : σ.SoleBy x (some q) := ⟨u, hu, .inl hhas⟩
        refine h.space.not_shared hsole (.inr ⟨some p, ?_, t, ht, .inr ⟨v, hm⟩⟩)
        exact fun hh => he (Option.some.inj hh).symm

theorem refs_kernelOwned (h : Procs L s σ) (hx : s.KernelOwned x) : σ.refs x = 1 := by
  rcases h.kernelOwned_iff.mp hx with hker | ⟨q, u, hu, hhas⟩
  · exact h.space.refs_kernel hker
  · rw [← Space.owners_env hu, owners_uses (.inl hhas), (h.tableInv hu).fits.has x hhas]

open Classical in
theorem refs_eq (h : Procs L s σ) : σ.refs x = ∑ p, (s.leaves p x).card + s.kernelCount x := by
  by_cases hx : s.KernelOwned x
  · rw [h.refs_kernelOwned hx, KState.kernelCount, if_pos hx]
    have hzero : ∑ p, (s.leaves p x).card = 0 :=
      Finset.sum_eq_zero fun p _ => by rw [h.leaves_kernelOwned hx p, Finset.card_empty]
    rw [hzero]
  · have hnot := hx
    rw [h.kernelOwned_iff, not_or] at hnot
    have hcard : ∀ p, (s.leaves p x).card = if σ.UsedBy x (some p) then 1 else 0 :=
      fun p => h.card_leaves fun t ht hh => hnot.2 ⟨p, t, ht, hh⟩
    have hheld : σ.held x = 0 := if_neg hnot.1
    have husers : σ.users x =
        (Finset.univ.filter (fun p => σ.UsedBy x (some p))).map Function.Embedding.some := by
      ext k
      rw [Space.mem_users]
      cases k with
      | none =>
        constructor
        · rintro ⟨t, ht, _⟩
          rw [h.spare] at ht
          cases ht
        · intro hk
          simp at hk
      | some p => simp
    rw [KState.kernelCount, if_neg hx, Space.refs, hheld, husers, Finset.card_map, Finset.card_filter,
      Finset.sum_congr rfl (fun p _ => hcard p)]

end Procs

/-- In every state of every run the counter of a page is the number of its mappings and of the uses
the kernel makes of it; the free pages are those with counter 0, each of them once in the free list;
and a page that is mapped twice is writable nowhere. -/
theorem page_counts_exact (hfree : m₀.freelist = []) (hm : kinit L m₀ = .ok ((), m))
    (hboot : Along (kstep L) BootOk (KState.start m) ops)
    (hrun : run (kstep L) (KState.start m) ops = .ok s) :
    s.mem.freelist.Nodup ∧ ∀ x, L.InRange x →
      (s.mem.counter (pa2cowIndex x)).toNat = ∑ p, (s.leaves p x).card + s.kernelCount x ∧
      (x ∈ s.mem.freelist ↔ (s.mem.counter (pa2cowIndex x)).toNat = 0) ∧
      (2 ≤ ∑ p, (s.leaves p x).card → ∀ p, ∀ v ∈ s.leaves p x, (s.pte p v).has PTE_W = false) := by
  obtain ⟨⟨σ, hp⟩, _⟩ := (Good.start hfree hm).1.run hboot hrun
  have halloc := hp.space.alloc
  refine ⟨halloc.nodup, fun x hx => ⟨?_, ?_, fun htwo p v hv => ?_⟩⟩
  · rw [halloc.count x hx, hp.refs_eq]
  · rw [halloc.free, halloc.count x hx]
    exact and_iff_right hx
  · cases ht : σ.table (some p) with
    | none =>
      rw [Procs.leaves_none ht hp] at hv
      exact absurd hv (Finset.notMem_empty v)
    | some t =>
      have hm := (hp.mem_leaves ht).mp hv
      rw [hp.pte_some ht, Bool.eq_false_iff]
      intro hw
      -- a writable page has this one user, so it cannot be mapped twice
      have hz := (hp.tableInv ht).fits.writable v x hm hw
      have hone : σ.refs x = 1 := by rw [← Space.owners_env ht, owners_uses (.inr ⟨v, hm⟩), hz]
      rw [hp.refs_eq] at hone
      omega

theorem page_counts_exact_forkRun : ∃ s x,
    run (kstep smallKernel) (KState.start (booted smallKernel)) forkRun = .ok s ∧ s.HalfShared ∧
    x = pte2pa (s.pte 0 1) ∧ ∑ p, (s.leaves p x).card + s.kernelCount x = 2 ∧ x ∉ s.mem.freelist := by
  obtain ⟨s, hrun, hshared, -, -, -, hin, htwo, -⟩ := forked
  obtain ⟨hcount, hfree, -⟩ := (page_counts_exact rfl kinit_booted forkRun_ok hrun).2 _ hin
  rw [htwo] at hcount hfree
  exact ⟨s, _, hrun, hshared, rfl, hcount.symm, fun hx => absurd (hfree.mp hx) (by decide)⟩

end Xv6
