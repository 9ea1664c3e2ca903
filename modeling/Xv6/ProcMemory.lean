import Xv6.ProcLife

/-! A process at work on its own memory: `sbrk`, loads and stores, `copyin` and `copyout`. -/

namespace Xv6

open Function StateProg

variable {L : Layout} {m m' : PhysMem} {env : Env} {t t' : Table} {s w : KState}
  {σ σ' : Space Key} {p q : Fin NPROC} {v x : Nat} {u : UserProc}

def UserProc.sbrk (u : UserProc) (n : Int) : UserProc :=
  if n > 0 then ⟨u.mem.grow (pageCount u.sz) (pageCount (u.sz + n.toNat)) true, u.sz + n.toNat⟩
  else if n < 0 then
    let newsz := min u.sz ((u.sz + n) % 2 ^ 64).toNat
    ⟨u.mem.shrink (pageCount newsz) (pageCount u.sz), newsz⟩
  else u

def UserProc.copyout (u : UserProc) (va : Nat) (bytes : List UInt8) : UserProc × Int :=
  let res := UserMem.copyout bytes.length u.mem va bytes
  (⟨res.1, u.sz⟩, res.2)

/-- A store on a page that may be written ends in a handler call that is refused. -/
def storeRefused (L : Layout) (pagetable va : Nat) (m : PhysMem) : Bool :=
  match leafEntry pagetable va m with
  | .ok (entry, _) =>
    let pte := entry.getD 0
    !(pte.has PTE_V && pte.has PTE_U && pte.has PTE_W) && faultRefused L pagetable va m
  | .error _ => false

theorem Table.Fits.view_clear (h : t.Fits env) {n : Nat}
    (heq : Set.EqOn m'.page m.page (env.live (t.clear v n))) :
    (t.clear v n).view m'.page = (t.view m.page).shrink v (v + n) := by
  funext y
  by_cases hy : v ≤ y ∧ y < v + n
  · rw [UserMem.shrink, if_pos hy, Table.view, show (t.clear v n).leaf y = 0 from if_pos hy]
    rfl
  · rw [UserMem.shrink, if_neg hy]
    have hl := Table.clear_leaf_of_not hy (t := t)
    apply h.view_congr hl
    intro x hx
    apply heq
    refine .inr ⟨y, hx.1, ?_⟩
    rw [hl]
    exact hx.2

theorem Table.Covers.clear {a b : Nat} (h : t.Covers b) (hab : a ≤ b) : (t.clear a (b - a)).Covers a where
  valid y := by
    have hle := h.le
    by_cases hy : a ≤ y ∧ y < a + (b - a)
    · rw [show (t.clear a (b - a)).leaf y = 0 from if_pos hy]
      simp only [userTop, trampolinePage, TRAPFRAME, TRAMPOLINE, MAXVA, PGSIZE] at hle ⊢
      constructor
      · intro hf
        exact absurd hf (by decide)
      · omega
    · rw [Table.clear_leaf_of_not hy, h.valid y]
      have hiff : y < b ↔ y < a := by omega
      rw [hiff]
  le := hab.trans h.le

namespace Settled

theorem running (h : Settled s) (hrun : (s.proc p).state = .runnable) :
    (s.proc p).pagetable ≠ none ∧ (s.proc p).trapframe ≠ none :=
  (h.live p (by rw [hrun]; decide)).2

theorem edit {pr : Proc} (h : Settled s) (he : s.Edits w p pr) (hlive : (s.proc p).state ≠ .unused)
    (hstate : pr.state ≠ .unused ∧ pr.state ≠ .used) (hpt : pr.pagetable ≠ none)
    (htf : pr.trapframe ≠ none) : Settled w where
  unused q hq := by
    by_cases hqp : q = p
    · subst q
      rw [he.self] at hq
      exact absurd hq hstate.1
    · rw [he.other q hqp] at hq ⊢
      exact h.unused q hq
  live q hq := by
    by_cases hqp : q = p
    · subst q
      rw [he.self]
      exact ⟨hstate.2, hpt, htf⟩
    · rw [he.other q hqp] at hq ⊢
      exact h.live q hq
  init hi := absurd (h.init (he.initproc ▸ hi) p) hlive

end Settled

namespace Procs

theorem running_table (h : Procs L s σ) (hs : Settled s) (hrun : (s.proc p).state = .runnable) :
    ∃ t, σ.table (some p) = some t := by
  obtain ⟨root, hroot⟩ := Option.ne_none_iff_exists'.mp (hs.running hrun).1
  obtain ⟨t, ht, _⟩ := h.exists_table hroot
  exact ⟨t, ht⟩

theorem resized {sz : Nat} (h : Procs L s σ) (hs : Settled s) (hrun : (s.proc p).state = .runnable)
    (ht : TableInv L m' (σ.env (some p)) t)
    (heq : Set.EqOn m'.page s.mem.page {x | 0 < (σ.env (some p)).count x})
    (hroot : (s.proc p).pagetable = some t.root) (hc : t.Covers (pageCount sz))
    (he : KState.Edits { s with mem := m' } w p { s.proc p with sz := sz }) (hm : w.mem = m') :
    (∃ σ', Procs L w σ') ∧ Settled w ∧
      w.users = update s.users p (some ⟨t.view m'.page, sz⟩) := by
  subst hm
  obtain ⟨h', hus⟩ := h.set ht heq he.of_mem hroot hc rfl
  refine ⟨⟨_, h'⟩, hs.edit he.of_mem ?_ ?_ (hs.running hrun).1 (hs.running hrun).2, hus⟩
  · rw [hrun]
    decide
  · dsimp only
    rw [hrun]
    decide

theorem growproc (h : Procs L s σ) (hs : Settled s) (hrun : (s.proc p).state = .runnable)
    (hu : s.users p = some u) (n : Int) :
    Wp (growproc L p n) (fun r w => (∃ σ', Procs L w σ') ∧ Settled w ∧
      (r = -1 ∧ w.users = s.users ∨ r = 0 ∧ w.users = update s.users p (some (u.sbrk n)))) s := by
  obtain ⟨t, ht⟩ := h.running_table hs hrun
  obtain ⟨hroot, hc⟩ := h.holds ht
  obtain rfl := h.user_eq ht hu
  rw [Xv6.growproc]
  apply wp_bind_get
  apply wp_bind_get
  apply wp_bind
  apply wp_deref hroot
  rw [UserProc.sbrk]
  by_cases hpos : n > 0
  · rw [if_pos hpos, if_pos hpos]
    apply wp_bind
    apply wp_onMem
    have hb : Building L (σ.env (some p)) s.mem t (s.proc p).sz (t.view s.mem.page) :=
      ⟨h.tableInv ht, hc, rfl⟩
    refine (hb.uvmalloc xperm_W).mono fun r m₁ hr => ?_
    obtain ⟨t', hroot', heq, ⟨rfl, hb', _⟩ | ⟨um, sz', rfl, hgrow, _, hb', _⟩⟩ := hr
    · obtain ⟨h₁, hus₁⟩ := h.set_table hb'.inv (fun y hy => heq (.inl hy)) (by rw [hroot']; exact hroot)
        hb'.covers
      refine wp_pure ⟨⟨_, h₁⟩, ⟨hs.unused, hs.live, hs.init⟩, .inl ⟨rfl, ?_⟩⟩
      rw [hus₁, hb'.view, ← hu, update_eq_self]
    · apply wp_bind
      refine wp_setProc (fun w he hm => ?_)
      obtain ⟨hp, hset, hus⟩ := h.resized hs hrun hb'.inv (fun y hy => heq (.inl hy))
        (by rw [hroot']; exact hroot) hb'.covers he hm
      refine wp_pure ⟨hp, hset, Or.inr ⟨rfl, ?_⟩⟩
      rw [UserMem.growTo, if_neg (by omega), if_neg (by omega), Option.some.injEq, Prod.mk.injEq] at hgrow
      rw [hus, hb'.view, ← hgrow.1, ← hgrow.2]
      rfl
  rw [if_neg hpos, if_neg hpos]
  by_cases hneg : n < 0
  · rw [if_pos hneg, if_pos hneg]
    dsimp only
    generalize hnew : (((s.proc p).sz + n) % 2 ^ 64).toNat = newsz
    have hcut : pageCount (min (s.proc p).sz newsz) ≤ pageCount (s.proc p).sz :=
      pageCount_mono (Nat.min_le_left ..)
    have hclear : t.clear (pageCount newsz) (pageCount (s.proc p).sz - pageCount newsz) =
        t.clear (pageCount (min (s.proc p).sz newsz))
          (pageCount (s.proc p).sz - pageCount (min (s.proc p).sz newsz)) := by
      rcases Nat.le_total newsz (s.proc p).sz with hle | hge
      · rw [Nat.min_eq_right hle]
      · rw [Nat.min_eq_left hge, Nat.sub_eq_zero_of_le (pageCount_mono hge), Nat.sub_self,
          Table.clear_zero, Table.clear_zero]
    apply wp_bind
    apply wp_onMem
    refine ((h.tableInv ht).uvmdealloc (fun y h1 h2 => ?_)).mono fun r m₁ hr => ?_
    · have hlt : y < userTop := Nat.lt_of_lt_of_le h2 hc.le
      exact ⟨hlt, (hc.user hlt).mpr h2⟩
    obtain ⟨rfl, ht', heq⟩ := hr
    rw [hclear] at ht' heq
    apply wp_bind
    refine wp_setProc fun w he hm => ?_
    obtain ⟨hp, hset, hus⟩ := h.resized hs hrun ht' (fun y hy => heq (.inl hy)) hroot (hc.clear hcut) he hm
    refine wp_pure ⟨hp, hset, .inr ⟨rfl, ?_⟩⟩
    rw [hus, (h.tableInv ht).fits.view_clear heq, Nat.add_sub_cancel' hcut]
  · rw [if_neg hneg, if_neg hneg]
    refine wp_pure ⟨⟨σ, h⟩, hs, .inr ⟨rfl, ?_⟩⟩
    rw [← hu, update_eq_self]

theorem agrees (h : Procs L s σ) (ht : σ.table (some p) = some t) (hag : t.Agrees t')
    (hinv : TableInv L m' (σ.env (some p)) t')
    (heq : Set.EqOn m'.page s.mem.page {x | 0 < (σ.env (some p)).count x}) :
    (∃ σ', Procs L { s with mem := m' } σ') ∧ KState.users { s with mem := m' } =
      update s.users p (some ⟨t'.view m'.page, (s.proc p).sz⟩) := by
  obtain ⟨hroot, hc⟩ := h.holds ht
  obtain ⟨h', hus⟩ := h.set_table hinv heq (by rw [hag.root]; exact hroot)
    (hc.congr (fun v => (hag.leaf v).valid))
  exact ⟨⟨_, h'⟩, hus⟩

theorem userStore (h : Procs L s σ) (ht : σ.table (some p) = some t) (hu : s.users p = some u)
    (va : Nat) (b : UInt8) :
    Wp (onMem (userStore L t.root va b 2)) (fun r w => (∃ m', w = { s with mem := m' }) ∧
      (∃ σ', Procs L w σ') ∧
      (r = .stored ∧ (∃ um, u.mem.store va b = some um ∧
          w.users = update s.users p (some ⟨um, u.sz⟩)) ∨
        r = .killed ∧ w.users = s.users ∧
          (storeRefused L t.root va s.mem = false → u.mem.store va b = none))) s := by
  obtain rfl := h.user_eq ht hu
  have hinv := h.tableInv ht
  apply wp_onMem
  refine (hinv.userStore va b 0).mono fun r m₁ hr => ?_
  rw [UserMem.store, Table.view_mayWrite]
  obtain ⟨rfl, hmay, ⟨t', hinv', hag, hview⟩, heq, _⟩ | ⟨rfl, rfl, href, hw, _⟩ := hr
  · obtain ⟨hp, hus⟩ := h.agrees ht hag hinv' heq
    refine ⟨⟨m₁, rfl⟩, hp, .inl ⟨rfl, _, if_pos hmay, ?_⟩⟩
    rw [hus, hview]
  · refine ⟨⟨s.mem, rfl⟩, ⟨σ, h⟩, .inr ⟨rfl, rfl, fun hnot => if_neg ?_⟩⟩
    intro hmay
    obtain ⟨e, he, hleaf⟩ := hinv.leafEntry_eq va
    have hnw : (t.leaf (va / PGSIZE)).has PTE_W = false := by
      rw [Bool.eq_false_iff]
      intro hh
      rw [hw hh] at hmay
      cases hmay
    rw [storeRefused, he] at hnot
    dsimp only at hnot
    rw [hleaf, href, hmay, hnw] at hnot
    simp at hnot

theorem userLoad (h : Procs L s σ) (ht : σ.table (some p) = some t) (hu : s.users p = some u)
    (va : Nat) :
    Wp (onMem (userLoad L t.root va 2)) (fun r w => w = s ∧
      ((∃ b, r = .loaded b ∧ u.mem.load va = some b) ∨ r = .killed ∧ u.mem.load va = none)) s := by
  obtain rfl := h.user_eq ht hu
  apply wp_onMem
  refine ((h.tableInv ht).userLoad va 1).mono fun r m₁ hr => ?_
  obtain ⟨rfl, hr⟩ := hr
  exact ⟨rfl, hr⟩

theorem copyin (h : Procs L s σ) (ht : σ.table (some p) = some t) (hu : s.users p = some u)
    (va len : Nat) :
    Wp (onMem (copyin t.root va len)) (fun r w => w = s ∧ r = UserMem.copyin len u.mem va len) s := by
  obtain rfl := h.user_eq ht hu
  apply wp_onMem
  refine ((h.tableInv ht).copyinLoop len va len).mono fun r m₁ hr => ?_
  obtain ⟨rfl, rfl⟩ := hr
  exact ⟨rfl, rfl⟩

theorem copyinstr (h : Procs L s σ) (ht : σ.table (some p) = some t) (hu : s.users p = some u)
    (va max : Nat) : Wp (onMem (copyinstr t.root va max)) (fun r w => w = s ∧
      match u.mem.readString va max with
      | some str => r.ret = 0 ∧ r.out = str ++ [0]
      | none => r.ret = -1) s := by
  obtain rfl := h.user_eq ht hu
  apply wp_onMem
  refine ((h.tableInv ht).copyinstrLoop max va max [] le_rfl).mono fun r m₁ hr => ?_
  obtain ⟨rfl, -, hr, -⟩ := hr
  exact ⟨rfl, hr⟩

theorem copyout (h : Procs L s σ) (ht : σ.table (some p) = some t) (hu : s.users p = some u)
    (va : Nat) (bytes : List UInt8) :
    Wp (onMem (copyout L t.root va bytes)) (fun r w => (∃ m', w = { s with mem := m' }) ∧
      (∃ σ', Procs L w σ') ∧ (r = 0 ∨ r = -1) ∧ ∃ u', w.users = update s.users p (some u') ∧
      (r = 0 ∨ copyoutRefused L t.root bytes.length va bytes s.mem = false →
        u.copyout va bytes = (u', r))) s := by
  obtain rfl := h.user_eq ht hu
  apply wp_onMem
  refine ((h.tableInv ht).copyoutLoop bytes.length va bytes).mono fun r m₁ hr => ?_
  obtain ⟨t', hinv', hag, heq, hr01, hcopy⟩ := hr
  obtain ⟨hp, hus⟩ := h.agrees ht hag hinv' heq
  refine ⟨⟨m₁, rfl⟩, hp, hr01, _, hus, fun hor => ?_⟩
  rw [UserProc.copyout, ← hcopy hor]

end Procs

end Xv6
