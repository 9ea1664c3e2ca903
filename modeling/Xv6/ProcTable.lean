import Mathlib.Data.Fintype.Option
import Xv6.ExecImage
import Xv6.ForkCopy
import Xv6.Proc

/-! The process table on top of the page tables: what holds between system calls, and the
user memory of a process as its page table in physical memory shows it. -/

namespace Xv6

open Function StateProg

abbrev Key := Option (Fin NPROC)

structure UserProc where
  mem : UserMem
  sz : Nat

abbrev Users := Fin NPROC → Option UserProc

def pteOf (m : PhysMem) (root v : Nat) : Pte :=
  match leafEntry root (v * PGSIZE) m with
  | .ok (entry, _) => entry.getD 0
  | .error _ => 0

def memView (m : PhysMem) (root : Nat) : UserMem := fun v =>
  if (pteOf m root v).has PTE_V && (pteOf m root v).has PTE_U then
    some (m.page (pte2pa (pteOf m root v)),
      (pteOf m root v).has PTE_W || (pteOf m root v).has PTE_COW)
  else none

def KState.users (s : KState) : Users := fun p =>
  (s.proc p).pagetable.map fun root => ⟨memView s.mem root, (s.proc p).sz⟩

def Proc.Holds (pr : Proc) : Option Table → Prop
  | none => pr.pagetable = none
  | some t => pr.pagetable = some t.root ∧ t.Covers (pageCount pr.sz)

structure Procs (L : Layout) (s : KState) (σ : Space Key) : Prop where
  space : SpaceInv L s.mem σ
  spare : σ.table none = none
  table : ∀ p, (s.proc p).Holds (σ.table (some p))
  kernel : ∀ x, x ∈ σ.kernel ↔ x ∈ s.kpages ∨ ∃ p, (s.proc p).trapframe = some x
  nodup : s.kpages.Nodup
  trapframe : ∀ p x, (s.proc p).trapframe = some x →
    x ∉ s.kpages ∧ ∀ q, (s.proc q).trapframe = some x → q = p

structure Settled (s : KState) : Prop where
  unused : ∀ p, (s.proc p).state = .unused →
    (s.proc p).pagetable = none ∧ (s.proc p).trapframe = none ∧ (s.proc p).sz = 0
  live : ∀ p, (s.proc p).state ≠ .unused → (s.proc p).state ≠ .used ∧
    (s.proc p).pagetable ≠ none ∧ (s.proc p).trapframe ≠ none
  init : s.initproc = none → ∀ p, (s.proc p).state = .unused

variable {L : Layout} {m m' : PhysMem} {env : Env} {t : Table} {s w : KState} {σ σ' : Space Key}
  {p q : Fin NPROC} {v x tf : Nat} {pr : Proc} {α : Type} {Q : α → KState → Prop}

theorem wp_onMem {a : Kernel α} (h : Wp a (fun r m' => Q r { s with mem := m' }) s.mem) :
    Wp (onMem a) Q s := by
  obtain ⟨r, m', hr, hq⟩ := h
  refine ⟨r, _, ?_, hq⟩
  simp only [onMem, hr]

structure KState.Edits (s w : KState) (p : Fin NPROC) (pr : Proc) : Prop where
  self : w.proc p = pr
  other : ∀ q, q ≠ p → w.proc q = s.proc q
  initproc : w.initproc = s.initproc
  kpages : w.kpages = s.kpages

theorem KState.Edits.trans {a b c : KState} {pr' : Proc} (h : a.Edits b p pr) (h' : b.Edits c p pr') :
    a.Edits c p pr' :=
  ⟨h'.self, fun q hq => (h'.other q hq).trans (h.other q hq), h'.initproc.trans h.initproc,
    h'.kpages.trans h.kpages⟩

theorem KState.Edits.of_mem (h : KState.Edits { s with mem := m } w p pr) : s.Edits w p pr :=
  ⟨h.self, h.other, h.initproc, h.kpages⟩

theorem KState.Edits.field_eq {f : Proc → α} (h : s.Edits w p pr) (hf : f pr = f (s.proc p))
    (q : Fin NPROC) : f (w.proc q) = f (s.proc q) := by
  by_cases hq : q = p
  · rw [hq, h.self, hf]
  · rw [h.other q hq]

theorem KState.Edits.set_mem (h : s.Edits w p pr) : s.Edits { w with mem := m } p pr :=
  ⟨h.self, h.other, h.initproc, h.kpages⟩

theorem wp_setProc {f : Proc → Proc} {Q : Unit → KState → Prop}
    (h : ∀ w, s.Edits w p (f (s.proc p)) → w.mem = s.mem → Q () w) : Wp (setProc p f) Q s := by
  apply wp_modify
  refine h _ ⟨update_self .., fun q hq => ?_, rfl, rfl⟩ rfl
  exact update_of_ne hq ..

theorem wp_deref {o : Option α} {a : α} (ho : o = some a) (h : Q a s) : Wp (deref o) Q s := by
  subst ho
  exact wp_pure h

theorem TableInv.pteOf_eq (h : TableInv L m env t) (v : Nat) : pteOf m t.root v = t.leaf v := by
  obtain ⟨e, he, hl⟩ := h.leafEntry_eq (v * PGSIZE)
  rw [pteOf, he]
  dsimp only
  rw [hl, Nat.mul_div_cancel _ (by decide)]

theorem TableInv.memView_eq (h : TableInv L m env t) : memView m t.root = t.view m.page := by
  funext v
  simp only [memView, h.pteOf_eq, Table.view]

namespace SpaceInv

variable {K : Type} [Fintype K] [DecidableEq K] {τ : Space K} {k k' : K}

theorem view_eq (h : SpaceInv L m τ) (hk : τ.table k = some t)
    (hp : ∀ x, τ.UsedBy x k → m'.page x = m.page x) : t.view m'.page = t.view m.page := by
  funext v
  apply (h.fits k t hk).view_congr rfl
  intro x hx
  exact hp x ⟨t, hk, .inr ⟨v, hx⟩⟩

theorem usedBy_of_eqOn (hne : k' ≠ k) (heq : Set.EqOn m'.page m.page {x | 0 < (τ.env k).count x})
    (hx : τ.UsedBy x k') : m'.page x = m.page x :=
  heq (Space.env_count_pos.mpr (.inr ⟨k', hne, hx⟩))

end SpaceInv

namespace Procs

theorem tableInv (h : Procs L s σ) (ht : σ.table (some p) = some t) :
    TableInv L s.mem (σ.env (some p)) t := h.space.tableInv ht

theorem holds (h : Procs L s σ) (ht : σ.table (some p) = some t) :
    (s.proc p).pagetable = some t.root ∧ t.Covers (pageCount (s.proc p).sz) := by
  have hh := h.table p
  rwa [ht] at hh

theorem exists_table (h : Procs L s σ) {root : Nat} (hr : (s.proc p).pagetable = some root) :
    ∃ t, σ.table (some p) = some t ∧ t.root = root ∧ t.Covers (pageCount (s.proc p).sz) := by
  have hh := h.table p
  cases ht : σ.table (some p) with
  | none =>
    rw [ht] at hh
    rw [show (s.proc p).pagetable = none from hh] at hr
    cases hr
  | some t =>
    rw [ht] at hh
    have hroot := hh.1
    rw [hr, Option.some.injEq] at hroot
    exact ⟨t, rfl, hroot.symm, hh.2⟩

theorem table_none (h : Procs L s σ) (hr : (s.proc p).pagetable = none) : σ.table (some p) = none := by
  cases ht : σ.table (some p) with
  | none => rfl
  | some t =>
    have hh := (h.holds ht).1
    rw [hr] at hh
    cases hh

theorem users_some (h : Procs L s σ) (ht : σ.table (some p) = some t) :
    s.users p = some ⟨t.view s.mem.page, (s.proc p).sz⟩ := by
  rw [KState.users, (h.holds ht).1, Option.map_some, (h.tableInv ht).memView_eq]

theorem user_eq {u : UserProc} (h : Procs L s σ) (ht : σ.table (some p) = some t)
    (hu : s.users p = some u) : u = ⟨t.view s.mem.page, (s.proc p).sz⟩ := by
  rw [h.users_some ht, Option.some.injEq] at hu
  exact hu.symm

theorem users_none (hr : (s.proc p).pagetable = none) : s.users p = none := by
  rw [KState.users, hr, Option.map_none]

theorem users_eq (h : Procs L s σ) (h' : Procs L w σ') (ht : σ'.table (some q) = σ.table (some q))
    (hsz : (w.proc q).sz = (s.proc q).sz)
    (hp : ∀ x, σ.UsedBy x (some q) → w.mem.page x = s.mem.page x) : w.users q = s.users q := by
  cases hq : σ.table (some q) with
  | none =>
    have hn : ∀ {u : KState} {τ : Space Key}, Procs L u τ → τ.table (some q) = none → u.users q = none := by
      intro u τ hu hτ
      have hh := hu.table q
      rw [hτ] at hh
      exact users_none hh
    rw [hn h hq, hn h' (ht.trans hq)]
  | some t =>
    rw [h.users_some hq, h'.users_some (ht.trans hq), hsz, h.space.view_eq hq hp]

theorem users_update (h : Procs L s σ) (h' : Procs L w σ') {a : Option UserProc}
    (ha : w.users p = a) (ht : ∀ q, q ≠ p → σ'.table (some q) = σ.table (some q))
    (hsz : ∀ q, q ≠ p → (w.proc q).sz = (s.proc q).sz)
    (hp : ∀ q, q ≠ p → ∀ x, σ.UsedBy x (some q) → w.mem.page x = s.mem.page x) :
    w.users = update s.users p a := by
  funext q
  by_cases he : q = p
  · subst q
    rw [ha, update_self]
  · rw [update_of_ne he]
    exact h.users_eq h' (ht q he) (hsz q he) (hp q he)

theorem of_space (h : Procs L s σ) (hs : SpaceInv L w.mem σ') (hker : σ'.kernel = σ.kernel)
    (hspare : σ'.table none = none) (htab : ∀ q, (w.proc q).Holds (σ'.table (some q)))
    (hk : w.kpages = s.kpages) (htf : ∀ q, (w.proc q).trapframe = (s.proc q).trapframe) :
    Procs L w σ' := by
  refine ⟨hs, hspare, htab, ?_, by rw [hk]; exact h.nodup, ?_⟩
  · intro x
    rw [hker, h.kernel x, hk]
    exact or_congr Iff.rfl (exists_congr (fun q => by rw [htf q]))
  · intro q x hx
    rw [htf q] at hx
    rw [hk]
    refine ⟨(h.trapframe q x hx).1, fun r hr => ?_⟩
    rw [htf r] at hr
    exact (h.trapframe q x hx).2 r hr

theorem congr (h : Procs L s σ) (hm : w.mem = s.mem) (hk : w.kpages = s.kpages)
    (hf : ∀ p, (w.proc p).pagetable = (s.proc p).pagetable ∧
      (w.proc p).trapframe = (s.proc p).trapframe ∧ (w.proc p).sz = (s.proc p).sz) :
    Procs L w σ ∧ w.users = s.users := by
  have h' : Procs L w σ := by
    apply h.of_space (hm ▸ h.space) rfl h.spare _ hk fun q => (hf q).2.1
    intro q
    have hq := h.table q
    cases ht : σ.table (some q) with
    | none =>
      rw [ht] at hq
      exact (hf q).1.trans hq
    | some t =>
      rw [ht] at hq
      exact ⟨(hf q).1.trans hq.1, by rw [(hf q).2.2]; exact hq.2⟩
  refine ⟨h', ?_⟩
  funext q
  exact h.users_eq h' rfl (hf q).2.2 fun x _ => by rw [hm]

theorem mem_congr (h : Procs L s σ) (hs : SpaceInv L m' σ)
    (hp : ∀ k x, σ.UsedBy x k → m'.page x = s.mem.page x) :
    Procs L { s with mem := m' } σ ∧ KState.users { s with mem := m' } = s.users := by
  have h' : Procs L { s with mem := m' } σ := ⟨hs, h.spare, h.table, h.kernel, h.nodup, h.trapframe⟩
  refine ⟨h', ?_⟩
  funext q
  exact h.users_eq h' rfl rfl (hp (some q))

theorem write_kernel (h : Procs L s σ) (hx : x ∈ σ.kernel) (b : Buffer) :
    Procs L { s with mem := { s.mem with page := update s.mem.page x b } } σ ∧
    KState.users { s with mem := { s.mem with page := update s.mem.page x b } } = s.users := by
  refine h.mem_congr (h.space.setPage_kernel hx b) fun k y hy => update_of_ne ?_ _ _
  rintro rfl
  exact h.space.not_used_of_kernel hx k hy

theorem set (h : Procs L s σ) (ht : TableInv L w.mem (σ.env (some p)) t)
    (heq : Set.EqOn w.mem.page s.mem.page {x | 0 < (σ.env (some p)).count x}) (he : s.Edits w p pr)
    (hroot : pr.pagetable = some t.root) (hc : t.Covers (pageCount pr.sz))
    (htf : pr.trapframe = (s.proc p).trapframe) :
    Procs L w (σ.set (some p) (some t)) ∧
      w.users = update s.users p (some ⟨t.view w.mem.page, pr.sz⟩) := by
  have htab : ∀ q, q ≠ p → (σ.set (some p) (some t)).table (some q) = σ.table (some q) :=
    fun q hq => Space.table_set_ne fun hh => hq (Option.some.inj hh)
  have h' : Procs L w (σ.set (some p) (some t)) := by
    refine h.of_space (h.space.set ht heq) rfl ?_ (fun q => ?_) he.kpages fun q => ?_
    · rw [Space.table_set_ne (by simp)]
      exact h.spare
    · by_cases hq : q = p
      · subst q
        rw [Space.table_set_self, he.self]
        exact ⟨hroot, hc⟩
      · rw [htab q hq, he.other q hq]
        exact h.table q
    · by_cases hq : q = p
      · subst q
        rw [he.self, htf]
      · rw [he.other q hq]
  refine ⟨h', h.users_update h' ?_ htab (fun q hq => by rw [he.other q hq]) ?_⟩
  · rw [h'.users_some Space.table_set_self, he.self]
  · intro q hq x hx
    exact SpaceInv.usedBy_of_eqOn (fun hh => hq (Option.some.inj hh)) heq hx

theorem set_table (h : Procs L s σ) (ht : TableInv L m' (σ.env (some p)) t)
    (heq : Set.EqOn m'.page s.mem.page {x | 0 < (σ.env (some p)).count x})
    (hroot : (s.proc p).pagetable = some t.root) (hc : t.Covers (pageCount (s.proc p).sz)) :
    Procs L { s with mem := m' } (σ.set (some p) (some t)) ∧ KState.users { s with mem := m' } =
      update s.users p (some ⟨t.view m'.page, (s.proc p).sz⟩) :=
  h.set (w := { s with mem := m' }) ht heq ⟨rfl, fun _ _ => rfl, rfl, rfl⟩ hroot hc rfl

theorem edit (h : Procs L s σ) (he : s.Edits w p pr) (hm : w.mem = s.mem)
    (hpr : pr.pagetable = (s.proc p).pagetable ∧ pr.trapframe = (s.proc p).trapframe ∧
      pr.sz = (s.proc p).sz) : Procs L w σ ∧ w.users = s.users := by
  refine h.congr hm he.kpages fun q => ?_
  by_cases hq : q = p
  · subst q
    rw [he.self]
    exact hpr
  · rw [he.other q hq]
    exact ⟨rfl, rfl, rfl⟩

end Procs

theorem SpaceInv.setTrapframe (h : SpaceInv L s.mem σ) (hx : tf ∈ σ.kernel) (off v : Nat) :
    Wp (onMem (setTrapframe tf off v)) (fun _ w => ∃ m', w = { s with mem := m' } ∧ SpaceInv L m' σ ∧
      (∀ k y, σ.UsedBy y k → m'.page y = s.mem.page y) ∧
      m'.page tf = (s.mem.page tf).setLE off v 8) s := by
  apply wp_onMem
  apply wp_modify
  refine ⟨_, rfl, h.setPage_kernel hx _, fun k y hy => update_of_ne ?_ _ _,
    update_self ..⟩
  rintro rfl
  exact h.not_used_of_kernel hx k hy

theorem Procs.setTrapframe (h : Procs L s σ) (htf : (s.proc p).trapframe = some tf) (off v : Nat) :
    Wp (onMem (setTrapframe tf off v)) (fun _ w => ∃ m', w = { s with mem := m' } ∧
      Procs L w σ ∧ w.users = s.users) s := by
  refine (h.space.setTrapframe ((h.kernel tf).mpr (.inr ⟨p, htf⟩)) off v).mono fun _ w hw => ?_
  obtain ⟨m', rfl, hs, hpage, -⟩ := hw
  exact ⟨m', rfl, h.mem_congr hs hpage⟩

end Xv6
