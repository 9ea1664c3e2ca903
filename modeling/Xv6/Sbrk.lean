import Xv6.ForkFailure
import Xv6.PageCounts

/-! `growproc` against what `sbrk` promises: the break moves by `n` bytes or not at all. -/

namespace Xv6

open StateProg ActionRun

variable {L : Layout} {env : Env} {t t' : Table} {s w : KState} {p : Fin NPROC}
  {n : Int} {v : Nat}

def KState.upage (s : KState) (p : Fin NPROC) (v : Nat) : Buffer := s.mem.page (pte2pa (s.pte p v))

def HasSpace (L : Layout) (s : KState) (p : Fin NPROC) : Prop :=
  ∃ env t, TableInv L s.mem env t ∧ (s.proc p).pagetable = some t.root ∧
    t.Covers (pageCount (s.proc p).sz)

/-- The pages below the break are mapped and no others, the new ones are zeroed and writable, and
the ones that stay are as they were. -/
structure Moved (p : Fin NPROC) (n : Int) (s w : KState) : Prop where
  size : ((w.proc p).sz : Int) = (s.proc p).sz + n
  mapped : ∀ v < userTop, (w.pte p v).has PTE_V = true ↔ v < pageCount (w.proc p).sz
  fresh : ∀ v, pageCount (s.proc p).sz ≤ v → v < pageCount (w.proc p).sz →
    w.upage p v = (fun _ => 0) ∧ (w.pte p v).has PTE_U = true ∧ (w.pte p v).has PTE_W = true
  kept : ∀ v, v < pageCount (s.proc p).sz → v < pageCount (w.proc p).sz →
    w.pte p v = s.pte p v ∧ w.upage p v = s.upage p v

structure Unmoved (p : Fin NPROC) (s w : KState) : Prop where
  size : (w.proc p).sz = (s.proc p).sz
  pte : ∀ v, w.pte p v = s.pte p v
  page : ∀ v < userTop, (s.pte p v).has PTE_V = true → w.upage p v = s.upage p v

def SbrkExact (p : Fin NPROC) (n : Int) (s : KState) (r : Int) (w : KState) : Prop :=
  r = 0 ∧ Moved p n s w ∨ r = -1 ∧ Unmoved p s w

theorem TableInv.pte_eq (h : TableInv L s.mem env t) (hroot : (s.proc p).pagetable = some t.root)
    (v : Nat) : s.pte p v = t.leaf v := by
  rw [KState.pte, hroot]
  exact h.pteOf_eq v

theorem TableInv.upage_eq (h : TableInv L s.mem env t) (hroot : (s.proc p).pagetable = some t.root)
    (v : Nat) : s.upage p v = s.mem.page (pte2pa (t.leaf v)) := by
  rw [KState.upage, h.pte_eq hroot]

namespace TableInv

theorem growproc_up (h : TableInv L s.mem env t) (hroot : (s.proc p).pagetable = some t.root)
    (hc : t.Covers (pageCount (s.proc p).sz)) (hn : 0 < n) :
    Wp (growproc L p n) (fun r w => SbrkExact p n s r w) s := by
  have hpte := h.pte_eq hroot
  have hpage := h.upage_eq hroot
  have hz : ∀ u, pageCount (s.proc p).sz ≤ u → u < userTop → (t.leaf u).has PTE_V = false :=
    fun u h1 h2 => hc.not_valid h1 h2
  rw [Xv6.growproc]
  apply wp_bind_get
  apply wp_bind_get
  apply wp_bind
  apply wp_deref hroot
  rw [if_pos hn]
  apply wp_bind
  apply wp_onMem
  refine (h.uvmalloc (hc.room h) hz xperm_W.low xperm_W.readable (fun _ => xperm_W.cow)).mono
    fun r m₁ hr => ?_
  obtain ⟨t', hinv, hroot', heq, ⟨rfl, hl, -⟩ | ⟨-, hlt, -⟩ | ⟨rfl, -, hle, htop, hext⟩⟩ := hr
  · -- no memory: the table has the entries it had
    have hinv' : TableInv L ({ s with mem := m₁ } : KState).mem env t' := hinv
    have hr' : (({ s with mem := m₁ } : KState).proc p).pagetable = some t'.root := hroot.trans (by rw [hroot'])
    refine wp_pure (.inr ⟨rfl, rfl, fun v => ?_, fun v hv hval => ?_⟩)
    · rw [hinv'.pte_eq hr', hpte, hl]
    · rw [hpte] at hval
      rw [hinv'.upage_eq hr', hpage, hl]
      exact heq (.inr ⟨v, hv, hval, rfl⟩)
  · omega
  · apply wp_bind
    refine wp_setProc fun w he hm => ?_
    have hsz : (w.proc p).sz = (s.proc p).sz + n.toNat := by rw [he.self]
    have hr' : (w.proc p).pagetable = some t'.root := by
      rw [he.self, hroot']
      exact hroot
    have hm' : w.mem = m₁ := hm
    have hinv' : TableInv L w.mem env t' := hm' ▸ hinv
    refine wp_pure (.inl ⟨rfl, ?_, fun v hv => ?_, fun v h1 h2 => ?_, fun v h1 h2 => ?_⟩)
    · rw [hsz]
      omega
    · rw [hinv'.pte_eq hr', hsz]
      exact (hext.covers hc (pageCount_mono hle) htop).user hv
    · rw [hsz] at h2
      obtain ⟨x, hx, ha, h0, -⟩ := hext.fresh v h1 h2
      obtain ⟨-, -, hW, hU, -⟩ := mapped_flags x (PTE_R ||| PTE_U ||| PTE_W)
      rw [hinv'.upage_eq hr', hinv'.pte_eq hr', hm', hx, mapped_pa ha xperm_W.low, hW, hU]
      exact ⟨h0, by decide, by decide⟩
    · have hleaf : t'.leaf v = t.leaf v := hext.same v (by omega)
      have hlt : v < userTop := Nat.lt_of_lt_of_le h1 hc.le
      rw [hinv'.pte_eq hr', hpte, hinv'.upage_eq hr', hpage, hm', hleaf]
      exact ⟨rfl, heq (.inr ⟨v, hlt, (hc.user hlt).mpr h1, rfl⟩)⟩

theorem growproc_down (h : TableInv L s.mem env t) (hroot : (s.proc p).pagetable = some t.root)
    (hc : t.Covers (pageCount (s.proc p).sz)) (hn : n < 0) :
    Wp (growproc L p n) (fun r w => r = 0 ∧
      (w.proc p).sz = min (s.proc p).sz (((s.proc p).sz + n) % 2 ^ 64).toNat ∧
      (((w.proc p).sz : Int) = (s.proc p).sz + n → Moved p n s w)) s := by
  have hpte := h.pte_eq hroot
  have hpage := h.upage_eq hroot
  rw [Xv6.growproc]
  apply wp_bind_get
  apply wp_bind_get
  apply wp_bind
  apply wp_deref hroot
  rw [if_neg (by omega), if_pos hn]
  generalize (((s.proc p).sz + n) % 2 ^ 64).toNat = newsz
  apply wp_bind
  apply wp_onMem
  refine (h.uvmdealloc (fun y h1 h2 => ?_)).mono fun r m₁ hr => ?_
  · have hlt : y < userTop := Nat.lt_of_lt_of_le h2 hc.le
    exact ⟨hlt, (hc.user hlt).mpr h2⟩
  obtain ⟨rfl, hinv, heq⟩ := hr
  apply wp_bind
  refine wp_setProc fun w he hm => ?_
  have hsz : (w.proc p).sz = min (s.proc p).sz newsz := by rw [he.self]
  refine wp_pure ⟨rfl, hsz, fun hexact => ?_⟩
  have hnew : (w.proc p).sz = newsz ∧ newsz < (s.proc p).sz := by omega
  have hmono := pageCount_mono (Nat.le_of_lt hnew.2)
  have hm' : w.mem = m₁ := hm
  have hinv' : TableInv L w.mem env _ := hm' ▸ hinv
  have hr' : (w.proc p).pagetable = some t.root := by
    rw [he.self]
    exact hroot
  refine ⟨hexact, fun v hv => ?_, fun v h1 h2 => ?_, fun v h1 h2 => ?_⟩
  · rw [hinv'.pte_eq hr', hnew.1]
    exact (hc.clear hmono).user hv
  · rw [hnew.1] at h2
    omega
  · rw [hnew.1] at h2
    have hleaf := Table.clear_leaf_of_not (t := t) (n := pageCount (s.proc p).sz - pageCount newsz)
      (show ¬ (pageCount newsz ≤ v ∧ v < _) by omega)
    have hlt : v < userTop := Nat.lt_of_lt_of_le h1 hc.le
    rw [hinv'.pte_eq hr', hpte, hinv'.upage_eq hr', hpage, hm', hleaf]
    refine ⟨rfl, heq (.inr ⟨v, hlt, ?_, ?_⟩)⟩
    · rw [hleaf]
      exact (hc.user hlt).mpr h1
    · rw [hleaf]

end TableInv

theorem HasSpace.growproc_below (h : HasSpace L s p) (hn : -2 ^ 31 ≤ n)
    (hbelow : (s.proc p).sz + n < 0) : ∃ w, growproc L p n s = .ok (0, w) ∧
      (w.proc p).sz = (s.proc p).sz := by
  obtain ⟨env, t, hinv, hroot, hc⟩ := h
  have hneg : n < 0 := by omega
  obtain ⟨r, w, hrun, rfl, hsz, -⟩ := hinv.growproc_down hroot hc hneg
  refine ⟨w, hrun, ?_⟩
  have hsmall := hc.small hinv
  simp only [pageCount, pgRoundUp, PGSIZE] at hsmall
  omega

theorem growproc_zero {root : Nat} (hroot : (s.proc p).pagetable = some root) :
    growproc L p 0 s = .ok (0, s) := by
  have h : Wp (growproc L p 0) (fun r w => r = 0 ∧ w = s) s := by
    apply wp_bind_get
    apply wp_bind_get
    apply wp_bind
    apply wp_deref hroot
    rw [if_neg (by decide), if_neg (by decide)]
    exact wp_pure ⟨rfl, rfl⟩
  obtain ⟨_, _, hrun, rfl, rfl⟩ := h
  exact hrun

/-- The break moves by exactly `n` or not at all, except when the request would take it below 0. -/
theorem growproc_exact_iff (h : HasSpace L s p) (hn : -2 ^ 31 ≤ n ∧ n < 2 ^ 31) :
    ∃ r w, growproc L p n s = .ok (r, w) ∧ (SbrkExact p n s r w ↔ 0 ≤ (s.proc p).sz + n) := by
  by_cases hbelow : (s.proc p).sz + n < 0
  · obtain ⟨w, hrun, hsz⟩ := h.growproc_below hn.1 hbelow
    refine ⟨0, w, hrun, fun hex => ?_, fun hpos => absurd hpos (by omega)⟩
    rcases hex with ⟨-, hmoved⟩ | ⟨h0, -⟩
    · have := hmoved.size
      omega
    · exact absurd h0 (by decide)
  · obtain ⟨env, t, hinv, hroot, hc⟩ := h
    have hpos : 0 ≤ (s.proc p).sz + n := by omega
    rcases Int.lt_trichotomy n 0 with hlt | rfl | hgt
    · obtain ⟨r, w, hrun, rfl, hsz, hmoved⟩ := hinv.growproc_down hroot hc hlt
      have hsmall := hc.small hinv
      simp only [pageCount, pgRoundUp, PGSIZE] at hsmall
      exact ⟨0, w, hrun, iff_of_true (.inl ⟨rfl, hmoved (by omega)⟩) hpos⟩
    · have hrun := growproc_zero (L := L) hroot
      refine ⟨0, s, hrun, iff_of_true (.inl ⟨rfl, by omega, fun v hv => ?_, fun v h1 h2 => ?_,
        fun v _ _ => ⟨rfl, rfl⟩⟩) hpos⟩
      · rw [hinv.pte_eq hroot]
        exact hc.user hv
      · omega
    · obtain ⟨r, w, hrun, hex⟩ := hinv.growproc_up hroot hc hgt
      exact ⟨r, w, hrun, iff_of_true hex hpos⟩

theorem exists_hasSpace : ∃ s p, HasSpace smallKernel s p := by
  obtain ⟨s, hs, hrun, -⟩ := firstProc
  obtain ⟨σ, t, hp, ht⟩ := (Good.booted (boot_small (by simp)) hs).exists_table hrun
  obtain ⟨hroot, hc⟩ := hp.holds ht
  exact ⟨s, 0, _, t, hp.tableInv ht, hroot, hc⟩

theorem growproc_exact_iff_booted : ∃ s p, HasSpace smallKernel s p ∧
    ∃ r w, growproc smallKernel p (-4096) s = .ok (r, w) ∧
      (SbrkExact p (-4096) s r w ↔ 0 ≤ ((s.proc p).sz : Int) + -4096) := by
  obtain ⟨s, p, h⟩ := exists_hasSpace
  exact ⟨s, p, h, growproc_exact_iff h ⟨by omega, by omega⟩⟩

/-- The request of `sbrk(0x80000004)`, in the first process. -/
theorem growproc_below_zero_succeeds : ∃ s p, HasSpace smallKernel s p ∧
    ∃ w, growproc smallKernel p (-2147483644) s = .ok (0, w) ∧ (w.proc p).sz = (s.proc p).sz ∧
      ¬ SbrkExact p (-2147483644) s 0 w := by
  obtain ⟨s, p, h⟩ := exists_hasSpace
  have ⟨env, t, hinv, _, hc⟩ := h
  have hsmall := hc.small hinv
  simp only [pageCount, pgRoundUp, PGSIZE] at hsmall
  obtain ⟨w, hrun, hsz⟩ := h.growproc_below (n := -2147483644) (by decide) (by omega)
  refine ⟨s, p, h, w, hrun, hsz, fun hex => ?_⟩
  rcases hex with ⟨-, hmoved⟩ | ⟨h0, -⟩
  · have := hmoved.size
    omega
  · exact absurd h0 (by decide)

end Xv6
