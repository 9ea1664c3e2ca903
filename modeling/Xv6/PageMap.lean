import Xv6.AddressSpaces

/-! A page table as a finite map from page numbers to entries: what any sequence of operations
on it stores is what `walk` finds. -/

namespace Xv6

open ActionRun Function StateProg

/-- The operations on a page table. `update` changes the entry that `walk` finds or makes for an
address; `other` is what the rest of the kernel and the processes do to memory. -/
inductive PtOp where
  | map (va size pa : Nat) (perm : Pte)
  | unmap (va npages : Nat) (doFree : Bool)
  | clear (va : Nat)
  | update (va : Nat) (alloc : Bool) (g : Pte → Pte)
  | other (g : PhysMem → PhysMem)

section Model

variable (L : Layout) (root : Nat)

def PtOp.exec : PtOp → Kernel Int
  | .map va size pa perm => mappages root va size pa perm
  | .unmap va npages doFree => do
    uvmunmap L root va npages doFree
    pure 0
  | .clear va => do
    uvmclear root va
    pure 0
  | .update va alloc g => do
    match ← walk root va alloc with
    | none => pure (-1)
    | some p => do
      let pte ← readPte p
      writePte p (g pte)
      pure 0
  | .other g => do
    modify g
    pure 0

def ptExecs : List PtOp → Kernel (List Int)
  | [] => pure []
  | op :: ops => do
    let r ← op.exec L root
    let rs ← ptExecs ops
    pure (r :: rs)

def unmapPages (va npages : Nat) : Nat := ((va + npages * PGSIZE) % 2 ^ 64 - va) / PGSIZE

/-- How often one of the first `n` pages from `v` on is mapped to the frame `q`. -/
def framesAt (m : PhysMem) (v n q : Nat) : Nat :=
  (List.range n).countP fun i => pte2pa (pteOf m root (v + i)) = q

/-- The frames that `uvmunmap` frees are allocated, as often as it frees them, and are no pages
of the table; other code leaves the pages of the table alone. -/
def PtOp.Ok (m : PhysMem) : PtOp → Prop
  | .map _ _ _ perm => perm.toNat < 1024
  | .unmap va npages true => ∀ q, L.InRange q →
      0 < framesAt root m (va / PGSIZE) (unmapPages va npages) q → ¬ TablePage m root q ∧
        framesAt root m (va / PGSIZE) (unmapPages va npages) q ≤ (m.counter (pa2cowIndex q)).toNat
  | .other g => ∃ refs, AllocInv L (g m) refs ∧
      ∀ q, TablePage m root q → refs q = 1 ∧ (g m).page q = m.page q
  | _ => True

/-- The condition on the operations of a run, in the states in which they are called. -/
def PtOks : List PtOp → PhysMem → Prop
  | [], _ => True
  | op :: ops, m => op.Ok L root m ∧ ∀ r m', op.exec L root m = .ok (r, m') → PtOks ops m'

end Model

abbrev PtMap := Nat → Pte

namespace PtMap

def store (f : PtMap) (v n : Nat) (g : Nat → Pte) : PtMap :=
  fun u => if v ≤ u ∧ u < v + n then g (u - v) else f u

def pagesOf (va size : Nat) : Nat :=
  (pgRoundDown ((va + size - 1) % 2 ^ 64) + 2 ^ 64 - pgRoundDown va) % 2 ^ 64 / PGSIZE + 1

def Step : PtOp → Int → PtMap → PtMap → Prop
  | .map va size pa perm, r, f, f' => ∃ n, (r = 0 ∧ n = pagesOf va size ∨ r = -1 ∧ n < pagesOf va size) ∧
      (∀ k < n, pte2pa (f' (va / PGSIZE + k)) = pgRoundDown ((pa + k * PGSIZE) % 2 ^ 64) ∧
        pteFlags (f' (va / PGSIZE + k)) = perm ||| PTE_V) ∧
      ∀ u, ¬ (va / PGSIZE ≤ u ∧ u < va / PGSIZE + n) → f' u = f u
  | .unmap va npages _, _, f, f' => f' = f.store (va / PGSIZE) (unmapPages va npages) fun _ => 0
  | .clear va, _, f, f' => f' = update f (va / PGSIZE) (f (va / PGSIZE) &&& ~~~PTE_U)
  | .update va _ g, r, f, f' => r = 0 ∧ f' = update f (va / PGSIZE) (g (f (va / PGSIZE))) ∨
      r = -1 ∧ f' = f
  | .other _, _, f, f' => f' = f

def Steps : List PtOp → List Int → PtMap → PtMap → Prop
  | [], rs, f, f' => rs = [] ∧ f' = f
  | op :: ops, rs, f, f' => ∃ r rest f₁, rs = r :: rest ∧ Step op r f f₁ ∧ Steps ops rest f₁ f'

variable {f : PtMap} {v n : Nat} {g : Nat → Pte}

theorem store_zero (f : PtMap) (v : Nat) (g : Nat → Pte) : f.store v 0 g = f := by
  funext u
  exact if_neg (by omega)

theorem store_succ (f : PtMap) (v n : Nat) (g : Nat → Pte) :
    update (f.store v n g) (v + n) (g n) = f.store v (n + 1) g := by
  funext u
  by_cases hu : u = v + n
  · subst u
    rw [update_self, store, if_pos (by omega), Nat.add_sub_cancel_left]
  · rw [update_of_ne hu, store, store]
    exact if_congr (by omega) rfl rfl

theorem store_at {k : Nat} (hk : k < n) : f.store v n g (v + k) = g k := by
  rw [store, if_pos (by omega), Nat.add_sub_cancel_left]

theorem store_next (f : PtMap) (v n : Nat) (g : Nat → Pte) : f.store v n g (v + n) = f (v + n) :=
  if_neg (by omega)

end PtMap

theorem pte2pa_mapped (pa : Nat) {perm : Pte} (hp : perm.toNat < 1024) :
    pte2pa (pa2pte pa ||| perm ||| PTE_V) = pgRoundDown (pa % 2 ^ 64) := by
  rw [pte2pa_set _ (by decide), pte2pa_set _ hp]
  simp only [pte2pa, pa2pte, BitVec.toNat_shiftLeft, BitVec.toNat_ushiftRight, BitVec.toNat_ofNat,
    Nat.shiftRight_eq_div_pow, Nat.shiftLeft_eq, pgRoundDown, PGSIZE]
  omega

theorem pteFlags_mapped (pa : Nat) {perm : Pte} (hp : perm.toNat < 1024) :
    pteFlags (pa2pte pa ||| perm ||| PTE_V) = perm ||| PTE_V := by
  apply BitVec.eq_of_getLsbD_eq
  intro i _
  rw [pteFlags_getLsbD, BitVec.getLsbD_or, BitVec.getLsbD_or, BitVec.getLsbD_or]
  by_cases hi : i < 10
  · rw [decide_eq_true hi, pa2pte_low pa hi, Bool.false_or, Bool.true_and]
  · have hV := getLsbD_of_lt (x := PTE_V) (by decide) (show 10 ≤ i by omega)
    rw [decide_eq_false hi, getLsbD_of_lt hp (by omega), hV]
    rfl

variable {L : Layout} {t : Table} {m : PhysMem} {root : Nat} {f : PtMap} {refs : Nat → Nat}

structure Holds (L : Layout) (root : Nat) (m : PhysMem) (f : PtMap) (t : Table) (refs : Nat → Nat) :
    Prop where
  root : t.root = root
  leaf : t.leaf = f
  rep : t.Rep m.page
  alloc : AllocInv L m refs
  sole : ∀ q, t.Has q → refs q = 1
  top : ∀ v, MAXVA / PGSIZE ≤ v → f v = 0

theorem Table.Grown.sole {t' : Table} {m' : PhysMem} {refs' : Nat → Nat}
    (h : t.Grown L m m' refs refs' t') (hs : ∀ q, t.Has q → refs q = 1) (q : Nat) (hq : t'.Has q) :
    refs' q = 1 := by
  by_cases hh : t.Has q
  · rw [h.same q (.inl hh)]
    exact hs q hh
  · exact (h.fresh q hq hh).2.2

namespace Holds

abbrev Any : Panic → Prop := fun _ => True

variable {va v q : Nat} {p : PtePtr}

theorem setPte (h : Holds L root m f t refs) (hv : v < MAXVA / PGSIZE) (hp : t.ptr v = some p)
    (pte : Pte) :
    Holds L root (m.setPte p pte) (update f v pte) (t.setLeaf v pte) refs where
  root := h.root
  leaf := by rw [← h.leaf]; rfl
  rep := h.rep.setPte hp pte
  alloc := h.alloc.congr rfl rfl
  sole := h.sole
  top u hu := by
    rw [update_of_ne (by omega)]
    exact h.top u hu

theorem walk (h : Holds L root m f t refs) (alloc : Bool) : WpUpTo Any (walk root va alloc)
    (fun r m' => va / PGSIZE < MAXVA / PGSIZE ∧ ∃ t' refs', Holds L root m' f t' refs' ∧
      ∀ p, r = some p → t'.ptr (va / PGSIZE) = some p) m := by
  rw [← h.root]
  by_cases hva : va < MAXVA
  · have hlt : va / PGSIZE < MAXVA / PGSIZE := by
      simp only [MAXVA, PGSIZE] at hva ⊢
      omega
    apply upTo_of_wp
    cases alloc with
    | false => exact ⟨_, m, h.rep.walk_lookup hva, hlt, t, refs, ⟨rfl, h.leaf, h.rep, h.alloc, h.sole,
        h.top⟩, fun p hp => hp⟩
    | true =>
      have hpos (q : Nat) (hq : t.Has q) : 0 < refs q := by
        rw [h.sole q hq]
        exact Nat.one_pos
      refine (h.rep.walk_alloc h.alloc hpos hva).mono fun r m' hr => ?_
      obtain ⟨t', refs', hg, hl, -, hres⟩ := hr
      refine ⟨hlt, t', refs', ⟨hg.root, hl.trans h.leaf, hg.rep, hg.alloc, hg.sole h.sole, h.top⟩,
        fun p hp => ?_⟩
      rcases hres with ⟨hn, -⟩ | ⟨hr, -⟩
      · cases hn.symm.trans hp
      · exact hr.symm.trans hp
  · unfold Xv6.walk
    rw [if_pos (by omega)]
    exact upTo_throw trivial

theorem readPte (h : Holds L root m f t refs) (hp : t.ptr v = some p) {α : Type} {g : Pte → Kernel α}
    {Q : α → PhysMem → Prop} (hg : WpUpTo Any (g (f v)) Q m) : WpUpTo Any (readPte p >>= g) Q m := by
  obtain ⟨_, _, hread⟩ := h.rep.ptr_eq_some hp
  apply upTo_bind
  change WpUpTo Any (g (pteAt (m.page p.page) p.index)) Q m
  rw [hread, h.leaf]
  exact hg

def Leads (L : Layout) (root : Nat) (op : PtOp) (f : PtMap) (r : Int) (m' : PhysMem) : Prop :=
  ∃ f' t' refs', PtMap.Step op r f f' ∧ Holds L root m' f' t' refs'

theorem updates (h : Holds L root m f t refs) (va : Nat) (alloc : Bool) (g : Pte → Pte) :
    WpUpTo Any ((PtOp.update va alloc g).exec L root) (Leads L root (.update va alloc g) f) m := by
  refine (h.walk alloc).bind fun r m' ⟨hlt, t', refs', h', hptr⟩ => ?_
  cases r with
  | none => exact upTo_pure ⟨f, t', refs', .inr ⟨rfl, rfl⟩, h'⟩
  | some p =>
    have hp := hptr p rfl
    apply h'.readPte hp
    apply upTo_bind_modify
    exact upTo_pure ⟨_, _, refs', .inl ⟨rfl, rfl⟩, h'.setPte hlt hp _⟩

theorem clear (h : Holds L root m f t refs) (va : Nat) :
    WpUpTo Any ((PtOp.clear va).exec L root) (Leads L root (.clear va) f) m := by
  apply upTo_bind
  refine (h.walk false).bind fun r m' ⟨hlt, t', refs', h', hptr⟩ => ?_
  cases r with
  | none => exact upTo_throw trivial
  | some p =>
    have hp := hptr p rfl
    apply h'.readPte hp
    apply upTo_modify
    exact upTo_pure ⟨_, _, refs', rfl, h'.setPte hlt hp _⟩

theorem map (h : Holds L root m f t refs) (va size pa : Nat) {perm : Pte} (hperm : perm.toNat < 1024) :
    WpUpTo Any ((PtOp.map va size pa perm).exec L root) (Leads L root (.map va size pa perm) f) m := by
  let g : Nat → Pte := fun k => pa2pte (pa + k * PGSIZE) ||| perm ||| PTE_V
  have hstep (n : Nat) (r : Int)
      (hr : r = 0 ∧ n = PtMap.pagesOf va size ∨ r = -1 ∧ n < PtMap.pagesOf va size) :
      PtMap.Step (.map va size pa perm) r f (f.store (va / PGSIZE) n g) := by
    refine ⟨n, hr, fun k hk => ?_, fun u hu => if_neg hu⟩
    rw [PtMap.store_at hk]
    exact ⟨pte2pa_mapped _ hperm, pteFlags_mapped _ hperm⟩
  have hdiv (i : Nat) : (pgRoundDown va + i * PGSIZE) / PGSIZE = va / PGSIZE + i := by
    simp only [pgRoundDown, PGSIZE]
    omega
  change WpUpTo Any (mappages root va size pa perm) _ m
  unfold mappages
  split
  · exact upTo_throw trivial
  · apply upTo_bind
    apply upTo_loop fun i m' => ∃ t' refs', Holds L root m' (f.store (va / PGSIZE) i g) t' refs'
    · rw [PtMap.store_zero]
      exact ⟨t, refs, h⟩
    · rintro i m₁ hi ⟨t₁, refs₁, h₁⟩
      refine (h₁.walk true).bind ?_
      rintro r m₂ ⟨hlt, t₂, refs₂, h₂, hptr⟩
      rw [hdiv] at hlt hptr
      cases r with
      | none => exact upTo_pure (upTo_pure ⟨_, t₂, refs₂, hstep i (-1) (.inr ⟨rfl, hi⟩), h₂⟩)
      | some p =>
        have hp := hptr p rfl
        apply h₂.readPte hp
        split
        · exact upTo_throw trivial
        · apply upTo_bind_modify
          refine upTo_pure ⟨t₂.setLeaf (va / PGSIZE + i) (g i), refs₂, ?_⟩
          rw [← PtMap.store_succ]
          exact h₂.setPte hlt hp (g i)
    · rintro m₁ ⟨t₁, refs₁, h₁⟩
      exact upTo_pure ⟨_, t₁, refs₁, hstep _ 0 (.inl ⟨rfl, rfl⟩), h₁⟩

theorem other (h : Holds L root m f t refs) {g : PhysMem → PhysMem}
    (hok : (PtOp.other g).Ok L root m) :
    WpUpTo Any ((PtOp.other g).exec L root) (Leads L root (.other g) f) m := by
  obtain ⟨refs', ha, hsame⟩ := hok
  have hhas (q : Nat) (hq : t.Has q) : TablePage m root q := by
    rw [← h.root]
    exact h.rep.tablePage_iff.mpr hq
  apply upTo_bind_modify
  exact upTo_pure ⟨f, t, refs', rfl, h.root, h.leaf, h.rep.congr fun q hq => (hsame q (hhas q hq)).2,
    ha, fun q hq => (hsame q (hhas q hq)).1, h.top⟩

theorem pteOf_eq (h : Holds L root m f t refs) (v : Nat) : pteOf m root v = f v := by
  rw [pteOf, ← h.root, h.rep.wp_leafEntry]
  dsimp only
  have hdiv : v * PGSIZE / PGSIZE = v := Nat.mul_div_cancel v (by decide)
  split
  · rw [hdiv, h.leaf]
    cases hp : t.ptr v with
    | some p => rfl
    | none =>
      rw [← h.leaf]
      exact (h.rep.ptr_eq_none hp).symm
  · refine (h.top v ?_).symm
    simp only [MAXVA, PGSIZE] at *
    omega

theorem kfree (h : Holds L root m f t refs) (hq : ¬ t.Has q) (hpos : 0 < refs q) :
    WpUpTo Any (kfree L q) (fun _ m' =>
      Holds L root m' f t (update refs q (refs q - 1))) m := by
  refine upTo_of_wp ((h.alloc.kfree hpos).mono fun _ m' hr => ?_)
  have hne (x : Nat) (hx : t.Has x) : x ≠ q := fun he => hq (he ▸ hx)
  refine ⟨h.root, h.leaf, h.rep.congr fun x hx => hr.2 x (.inl (hne x hx)), hr.1,
    fun x hx => ?_, h.top⟩
  rw [update_of_ne (hne x hx)]
  exact h.sole x hx

theorem walk_find (h : Holds L root m f t refs) : WpUpTo Any (Xv6.walk root va false)
    (fun r m' => m' = m ∧ va < MAXVA ∧ r = t.ptr (va / PGSIZE)) m := by
  by_cases hva : va < MAXVA
  · rw [← h.root]
    exact upTo_of_wp ⟨_, m, h.rep.walk_lookup hva, rfl, hva, rfl⟩
  · unfold Xv6.walk
    rw [if_pos (by omega)]
    exact upTo_throw trivial

theorem release (h : Holds L root m f t refs) (doFree : Bool)
    (hfree : doFree = true → L.InRange q → ¬ t.Has q ∧ 0 < refs q) {g : Kernel (Option Unit)}
    {Q : Option Unit → PhysMem → Prop} (hg : ∀ m' refs', Holds L root m' f t refs' →
      (∀ x, refs' x + (if doFree = true ∧ q = x then 1 else 0) = refs x) → WpUpTo Any g Q m') :
    WpUpTo Any (if doFree = true then Xv6.kfree L q >>= fun _ => g else g) Q m := by
  cases doFree with
  | false => exact hg m refs h fun x => by simp
  | true =>
    apply upTo_bind
    by_cases hr : L.InRange q
    · obtain ⟨hhas, hpos⟩ := hfree rfl hr
      refine (h.kfree hhas hpos).mono fun _ m' h' => hg m' _ h' fun x => ?_
      by_cases hx : q = x
      · subst x
        rw [update_self, if_pos ⟨rfl, rfl⟩]
        omega
      · rw [update_of_ne (Ne.symm hx), if_neg fun hc => hx hc.2, Nat.add_zero]
    · have hbad : q % PGSIZE ≠ 0 ∨ q < L.kend ∨ PHYSTOP ≤ q := by
        unfold Layout.InRange at hr
        omega
      unfold Xv6.kfree
      rw [if_pos hbad]
      exact upTo_throw trivial

theorem unmap (h : Holds L root m f t refs) (va npages : Nat) (doFree : Bool)
    (hok : (PtOp.unmap va npages doFree).Ok L root m) :
    WpUpTo Any ((PtOp.unmap va npages doFree).exec L root) (Leads L root (.unmap va npages doFree) f) m := by
  apply upTo_bind
  unfold uvmunmap
  split
  · exact upTo_throw trivial
  · rename_i halign
    let freed : Nat → Nat → Nat := fun i q =>
      (List.range i).countP fun j => doFree = true ∧ pte2pa (f (va / PGSIZE + j)) = q
    have hsucc (i q : Nat) : freed (i + 1) q = freed i q +
        if doFree = true ∧ pte2pa (f (va / PGSIZE + i)) = q then 1 else 0 := by
      simp only [freed, List.range_succ, List.countP_append, List.countP_singleton, decide_eq_true_eq]
    apply upTo_bind
    apply upTo_loop (fun i m' => ∃ t' refs', t'.Has = t.Has ∧
      Holds L root m' (f.store (va / PGSIZE) i (fun _ => 0)) t' refs' ∧
      ∀ q, refs' q + freed i q = refs q)
    · rw [PtMap.store_zero]
      exact ⟨t, refs, rfl, h, fun q => rfl⟩
    · rintro i m₁ hi ⟨t₁, refs₁, hhas, h₁, hrefs⟩
      refine h₁.walk_find.bind fun r m₂ ⟨hm, hva, hr⟩ => ?_
      have hdiv : (va + i * PGSIZE) / PGSIZE = va / PGSIZE + i := by
        simp only [PGSIZE] at halign ⊢
        omega
      rw [hdiv] at hr
      subst m₂
      cases r with
      | none => exact upTo_throw trivial
      | some p =>
        apply h₁.readPte hr.symm
        rw [PtMap.store_next]
        split
        · exact upTo_throw trivial
        · split
          · exact upTo_throw trivial
          · have hlt : va / PGSIZE + i < MAXVA / PGSIZE := by
              simp only [MAXVA, PGSIZE] at hva ⊢
              omega
            refine h₁.release doFree ?_ ?_
            · rintro rfl hin
              have hcount : framesAt root m (va / PGSIZE) (unmapPages va npages)
                  (pte2pa (f (va / PGSIZE + i))) = freed (unmapPages va npages)
                    (pte2pa (f (va / PGSIZE + i))) := by
                simp only [framesAt, freed, h.pteOf_eq, true_and]
              have hle : freed (i + 1) (pte2pa (f (va / PGSIZE + i))) ≤ freed (unmapPages va npages)
                  (pte2pa (f (va / PGSIZE + i))) :=
                (List.range_sublist.mpr hi).countP_le
              have hnext := hsucc i (pte2pa (f (va / PGSIZE + i)))
              rw [if_pos ⟨rfl, rfl⟩] at hnext
              have hone := hok _ hin (by omega)
              rw [h.alloc.count _ hin] at hone
              have hsum := hrefs (pte2pa (f (va / PGSIZE + i)))
              refine ⟨fun hc => hone.1 ?_, by omega⟩
              rw [← h.root]
              exact h.rep.tablePage_iff.mpr (hhas ▸ hc)
            · intro m₂ refs₂ h₂ hrefs₂
              apply upTo_bind_modify
              refine upTo_pure ⟨t₁.setLeaf (va / PGSIZE + i) 0, refs₂, hhas, ?_, fun q => ?_⟩
              · rw [← PtMap.store_succ]
                exact h₂.setPte hlt hr.symm 0
              · rw [hsucc, ← hrefs q, ← hrefs₂ q]
                omega
    · rintro m₁ ⟨t₁, refs₁, -, h₁, -⟩
      exact upTo_pure (upTo_pure ⟨_, t₁, refs₁, rfl, h₁⟩)

theorem exec (h : Holds L root m f t refs) {op : PtOp} (hok : op.Ok L root m) :
    WpUpTo Any (op.exec L root) (Leads L root op f) m := by
  cases op with
  | map va size pa perm => exact h.map va size pa hok
  | unmap va npages doFree => exact h.unmap va npages doFree hok
  | clear va => exact h.clear va
  | update va alloc g => exact h.updates va alloc g
  | other g => exact h.other hok

theorem execs {ops : List PtOp} {rs : List Int} {m' : PhysMem} (h : Holds L root m f t refs)
    (hok : PtOks L root ops m) (hrun : ptExecs L root ops m = .ok (rs, m')) :
    ∃ f' t' refs', PtMap.Steps ops rs f f' ∧ Holds L root m' f' t' refs' := by
  induction ops generalizing m f t refs rs with
  | nil =>
    cases hrun
    exact ⟨f, t, refs, ⟨rfl, rfl⟩, h⟩
  | cons op ops ih =>
    obtain ⟨r, m₁, hop, hrun⟩ := ok_of_bind hrun
    obtain ⟨rest, m₂, hrest, hrun⟩ := ok_of_bind hrun
    cases hrun
    obtain ⟨f₁, t₁, refs₁, hstep, h₁⟩ := (h.exec hok.1).ok hop
    obtain ⟨f', t', refs', hsteps, h'⟩ := ih h₁ (hok.2 r m₁ hop) hrest
    exact ⟨f', t', refs', ⟨r, rest, f₁, rfl, hstep, hsteps⟩, h'⟩

end Holds

/-- The page table at `root` in memory `m` is the map `f`: `walk` finds the entry of every
address, and a table without valid entries can be taken apart, which returns each of its pages to
the free list. -/
structure RefinesMap (L : Layout) (root : Nat) (m : PhysMem) (f : PtMap) : Prop where
  lookup : ∀ va < MAXVA, ∃ p, walk root va false m = .ok (p, m) ∧
    match p with
    | none => f (va / PGSIZE) = 0
    | some p => pteAt (m.page p.page) p.index = f (va / PGSIZE)
  free : (∀ v < MAXVA / PGSIZE, (f v).has PTE_V = false) → ∃ m', freewalk L 3 root m = .ok ((), m') ∧
    m'.freelist.Nodup ∧ (∀ q, TablePage m root q → q ∉ m.freelist) ∧
    ∀ q, q ∈ m'.freelist ↔ q ∈ m.freelist ∨ TablePage m root q

theorem Holds.refinesMap (h : Holds L root m f t refs) : RefinesMap L root m f where
  lookup va hva := by
    refine ⟨t.ptr (va / PGSIZE), ?_, ?_⟩
    · rw [← h.root]
      exact h.rep.walk_lookup hva
    · rw [← h.leaf]
      cases hp : t.ptr (va / PGSIZE) with
      | none => exact h.rep.ptr_eq_none hp
      | some p => exact (h.rep.ptr_eq_some hp).2.2
  free hz := by
    have hleaf (v : Nat) : (t.leaf v).has PTE_V = false := by
      rw [h.leaf]
      by_cases hv : v < MAXVA / PGSIZE
      · exact hz v hv
      · rw [h.top v (by omega)]
        decide
    have hpage (q : Nat) : TablePage m root q ↔ t.Has q := by
      rw [← h.root]
      exact h.rep.tablePage_iff
    obtain ⟨⟨⟩, m', hrun, ha, -⟩ := freewalk_bare (h.rep.bare hleaf) h.alloc h.sole
    rw [h.root] at hrun
    refine ⟨m', hrun, ha.nodup, fun q hq hf => ?_, fun q => ?_⟩
    · have hone := h.sole q ((hpage q).mp hq)
      have hzero := ((h.alloc.free q).mp hf).2
      omega
    · rw [ha.free, h.alloc.free, hpage]
      by_cases hq : t.Has q
      · have hin : L.InRange q := h.alloc.inRange (by rw [h.sole q hq]; exact Nat.one_pos)
        rw [without_mem (show q ∈ {x | t.Has x} from hq)]
        exact iff_of_true ⟨hin, rfl⟩ (.inr hq)
      · rw [without_not_mem (show q ∉ {x | t.Has x} from hq)]
        exact ⟨.inl, fun hc => hc.resolve_right hq⟩

theorem AllocInv.uvmcreate_holds (h : AllocInv L m refs) :
    Wp uvmcreate (fun r m' =>
      match r with
      | none => m.freelist = []
      | some root => ∃ refs', Holds L root m' (fun _ => 0) (Table.blank root) refs') m := by
  refine h.kalloc.bind fun r m₁ hr => ?_
  cases r with
  | none => exact wp_pure hr.1
  | some root =>
    obtain ⟨hrange, -, ha, -, -⟩ := hr
    apply wp_bind_modify
    apply wp_pure
    exact ⟨_, rfl, rfl, Table.blank_rep hrange.pageAddr (update_self ..), ha.congr rfl rfl,
      fun q hq => by rw [Table.blank_has.mp hq, update_self], fun _ _ => rfl⟩

/-- Whatever has been mapped, unmapped and updated since `uvmcreate`, the page table is the map
that these operations make. -/
theorem page_table_refines_map {m₀ m₁ : PhysMem} {ops : List PtOp} {rs : List Int}
    (ha : AllocInv L m₀ refs) (hcreate : uvmcreate m₀ = .ok (some root, m₁))
    (hok : PtOks L root ops m₁) (hrun : ptExecs L root ops m₁ = .ok (rs, m)) :
    ∃ f, PtMap.Steps ops rs (fun _ => 0) f ∧ RefinesMap L root m f := by
  obtain ⟨_, _, hrun₀, h₀⟩ := ha.uvmcreate_holds
  rw [hcreate] at hrun₀
  cases hrun₀
  obtain ⟨refs₁, h₁⟩ := h₀
  obtain ⟨f, t, refs', hsteps, h⟩ := h₁.execs hok hrun
  exact ⟨f, hsteps, h.refinesMap⟩

def firstPtOps : List PtOp := [.map 0 (2 * PGSIZE) 0x80001000 PTE_R, .unmap 0 1 false]

/-- Two pages are mapped in a fresh page table, and one of them is unmapped. -/
theorem first_mapping_refines_map : ∃ m₁ m root f, uvmcreate (booted smallKernel) = .ok (some root, m₁) ∧
    ptExecs smallKernel root firstPtOps m₁ = .ok ([0, 0], m) ∧
    PtMap.Steps firstPtOps [0, 0] (fun _ => 0) f ∧ RefinesMap smallKernel root m f ∧
    f 0 = 0 ∧ (f 1).has PTE_V = true := by
  obtain ⟨⟨_, m₁⟩, hcreate, root, rfl, hends⟩ := Ends.exists_ok (r := uvmcreate (booted smallKernel))
    (P := fun a => ∃ root ∈ a.1, Ends (fun b => b.1 = [0, 0] ∧
      Ends (fun c => ∃ p ∈ c.1, pteAt (b.2.page p.page) p.index = 0) (fun _ => False)
        (walk root 0 false b.2) ∧
      Ends (fun c => ∃ p ∈ c.1, (pteAt (b.2.page p.page) p.index).has PTE_V = true) (fun _ => False)
        (walk root PGSIZE false b.2)) (fun _ => False) (ptExecs smallKernel root firstPtOps a.2))
    (by decide +kernel)
  obtain ⟨⟨_, m⟩, hrun, rfl, h0, h1⟩ := hends.exists_ok
  obtain ⟨⟨_, m₂⟩, hwalk₀, p₀, rfl, hp₀⟩ := h0.exists_ok
  obtain ⟨⟨_, m₃⟩, hwalk₁, p₁, rfl, hp₁⟩ := h1.exists_ok
  have hok : PtOks smallKernel root firstPtOps m₁ :=
    ⟨show PTE_R.toNat < 1024 by decide, fun _ _ _ => ⟨trivial, fun _ _ _ => trivial⟩⟩
  obtain ⟨f, hsteps, href⟩ :=
    page_table_refines_map ((kinit_free (L := smallKernel) rfl).ok kinit_booted) hcreate hok hrun
  refine ⟨m₁, m, root, f, hcreate, hrun, hsteps, href, ?_, ?_⟩
  · obtain ⟨p, hwalk, hp⟩ := href.lookup 0 (by decide)
    cases hwalk₀.symm.trans hwalk
    exact hp.symm.trans hp₀
  · obtain ⟨p, hwalk, hp⟩ := href.lookup PGSIZE (by decide)
    cases hwalk₁.symm.trans hwalk
    dsimp only at hp
    rw [hp] at hp₁
    exact hp₁

end Xv6
