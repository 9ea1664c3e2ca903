import Xv6.CowFault

/-! Loads and stores of user code, and the copies the kernel makes for system calls. Each
is what `UserMem` says of the memory the process sees, unless the fault handler refuses. -/

namespace Xv6

open Function StateProg

section Model

variable (L : Layout)

def leafEntry (pagetable va : Nat) : Kernel (Option Pte) :=
  if va ≥ MAXVA then pure none
  else do
    match ← walk pagetable va false with
    | none => pure none
    | some p => do
      let pte ← readPte p
      pure (some pte)

inductive StoreResult where
  | stored
  | killed
  | faulting
  deriving DecidableEq, Repr

inductive LoadResult where
  | loaded (b : UInt8)
  | killed
  | faulting
  deriving DecidableEq, Repr

/-- A store instruction, tried up to `tries` times: a fault goes to `usertrap`, which kills
the process or lets it try again. -/
def userStore (pagetable va : Nat) (b : UInt8) : Nat → Kernel StoreResult
  | 0 => pure .faulting
  | tries + 1 => do
    let entry ← leafEntry pagetable va
    let pte := entry.getD 0
    if pte.has PTE_V && pte.has PTE_U && pte.has PTE_W then
      modify (fun m => { m with
        page := update m.page (pte2pa pte)
          (Buffer.write (m.page (pte2pa pte)) (va % PGSIZE) [b]) })
      pure .stored
    else if (← cowPageFaultHandler L pagetable va) = -1 then pure .killed
    else userStore pagetable va b tries

def userLoad (pagetable va : Nat) : Nat → Kernel LoadResult
  | 0 => pure .faulting
  | tries + 1 => do
    let entry ← leafEntry pagetable va
    let pte := entry.getD 0
    if pte.has PTE_V && pte.has PTE_U && pte.has PTE_R then do
      let m ← get
      pure (.loaded (m.page (pte2pa pte) (va % PGSIZE)))
    else if (← cowPageFaultHandler L pagetable va) = -1 then pure .killed
    else userLoad pagetable va tries

def faultRefused (pagetable va : Nat) (m : PhysMem) : Bool :=
  match leafEntry pagetable va m, cowPageFaultHandler L pagetable va m with
  | .ok (entry, _), .ok (r, _) => (entry.getD 0).mayWrite && r == -1
  | _, _ => false

/-- Some handler call that `copyout` makes turns down a page the process may write. -/
def copyoutRefused (pagetable : Nat) : Nat → Nat → List UInt8 → PhysMem → Bool
  | 0, _, _, _ => false
  | fuel + 1, dstva, src, m =>
    if src = [] then false
    else
      match cowPageFaultHandler L pagetable dstva m with
      | .error _ => false
      | .ok (r, m₁) =>
        if r = -1 then faultRefused L pagetable dstva m
        else
          match walkaddr pagetable (pgRoundDown dstva) m₁ with
          | .ok (some pa0, m₂) =>
            let n := min (PGSIZE - (dstva - pgRoundDown dstva)) src.length
            copyoutRefused pagetable fuel (pgRoundDown dstva + PGSIZE) (src.drop n) { m₂ with
              page := update m₂.page pa0
                (Buffer.write (m₂.page pa0) (dstva - pgRoundDown dstva) (src.take n)) }
          | _ => false

end Model

variable {L : Layout} {m m' : PhysMem} {env : Env} {t t' : Table} {v va q : Nat} {p : PtePtr} {pte : Pte}

theorem Table.view_mayWrite (page : Nat → Buffer) (v : Nat) :
    (t.view page).mayWrite v = (t.leaf v).mayWrite := by
  rw [UserMem.mayWrite, Table.view, Pte.mayWrite]
  cases (t.leaf v).has PTE_V && (t.leaf v).has PTE_U <;> rfl

theorem Pte.mayWrite_access (h : pte.mayWrite = true) : pte.has PTE_V = true ∧ pte.has PTE_U = true := by
  rw [Pte.mayWrite, Bool.and_eq_true, Bool.and_eq_true] at h
  exact h.1

theorem Table.Rep.wp_leafEntry (h : t.Rep m.page) (va : Nat) :
    leafEntry t.root va m =
      .ok (if va < MAXVA then (t.ptr (va / PGSIZE)).map (fun _ => t.leaf (va / PGSIZE)) else none, m) := by
  have hwp : Wp (leafEntry t.root va) (fun r m' => m' = m ∧ r =
      if va < MAXVA then (t.ptr (va / PGSIZE)).map (fun _ => t.leaf (va / PGSIZE)) else none) m := by
    unfold leafEntry
    by_cases hva : va ≥ MAXVA
    · rw [if_pos hva, if_neg (by omega)]
      exact wp_pure ⟨rfl, rfl⟩
    · rw [if_neg hva, if_pos (by omega)]
      apply h.wp_walk (by omega)
      cases hp : t.ptr (va / PGSIZE) with
      | none => exact wp_pure ⟨rfl, rfl⟩
      | some p => exact h.wp_readPte hp (wp_pure ⟨rfl, rfl⟩)
  obtain ⟨r, s, hrun, rfl, rfl⟩ := hwp
  exact hrun

theorem Table.Fits.leaf_of_ge (h : t.Fits env) (hva : MAXVA ≤ va) : t.leaf (va / PGSIZE) = 0 := by
  apply (h.leaf _).zero
  apply (h.leaf _).top
  simp only [MAXVA, PGSIZE] at hva ⊢
  omega

namespace TableInv

theorem leafEntry_eq (h : TableInv L m env t) (va : Nat) : ∃ e, leafEntry t.root va m = .ok (e, m) ∧
    e.getD 0 = t.leaf (va / PGSIZE) := by
  refine ⟨_, h.rep.wp_leafEntry va, ?_⟩
  by_cases hva : va < MAXVA
  · rw [if_pos hva]
    cases hp : t.ptr (va / PGSIZE) with
    | none => rw [h.rep.ptr_eq_none hp]; rfl
    | some p => rfl
  · rw [if_neg hva, h.fits.leaf_of_ge (by omega)]
    rfl

theorem walkaddr_eq (h : TableInv L m env t) (va : Nat) : walkaddr t.root va m =
    .ok (if (t.leaf (va / PGSIZE)).has PTE_V && (t.leaf (va / PGSIZE)).has PTE_U then
      some (pte2pa (t.leaf (va / PGSIZE))) else none, m) := by
  have hwp : Wp (walkaddr t.root va) (fun r m' => m' = m ∧ r =
      if (t.leaf (va / PGSIZE)).has PTE_V && (t.leaf (va / PGSIZE)).has PTE_U then
        some (pte2pa (t.leaf (va / PGSIZE))) else none) m := by
    unfold walkaddr
    by_cases hva : va ≥ MAXVA
    · rw [if_pos hva, h.fits.leaf_of_ge hva]
      exact wp_pure ⟨rfl, rfl⟩
    · rw [if_neg hva]
      apply h.rep.wp_walk (by omega)
      cases hp : t.ptr (va / PGSIZE) with
      | none =>
        rw [h.rep.ptr_eq_none hp]
        exact wp_pure ⟨rfl, rfl⟩
      | some p =>
        apply h.rep.wp_readPte hp
        cases hv : (t.leaf (va / PGSIZE)).has PTE_V with
        | false => exact wp_pure ⟨rfl, rfl⟩
        | true =>
          cases hu : (t.leaf (va / PGSIZE)).has PTE_U with
          | false => exact wp_pure ⟨rfl, rfl⟩
          | true => exact wp_pure ⟨rfl, rfl⟩
  obtain ⟨r, s, hrun, rfl, rfl⟩ := hwp
  exact hrun

theorem putPage (h : TableInv L m env t) (hat : t.MapsAt v q) (hz : env.count q = 0) (off : Nat)
    (bytes : List UInt8) (hm : m' = { m with
      page := update m.page q (Buffer.write (m.page q) off bytes) }) :
    TableInv L m' env t ∧ Set.EqOn m'.page m.page {x | 0 < env.count x} ∧
      t.view m'.page = (t.view m.page).putPage v off bytes := by
  subst hm
  refine ⟨?_, ?_, ?_⟩
  · refine h.congr rfl rfl fun x hx => update_of_ne ?_ _ _
    rintro rfl
    exact h.fits.apart _ hx ⟨v, hat⟩
  · intro x hx
    refine update_of_ne ?_ _ _
    rintro rfl
    change 0 < env.count _ at hx
    omega
  · funext u
    rw [UserMem.putPage]
    by_cases he : u = v
    · subst u
      rw [update_self, Table.view, Table.view, hat.2.2]
      by_cases hvu : ((t.leaf v).has PTE_V && (t.leaf v).has PTE_U) = true
      · simp only [if_pos hvu, Option.map_some, update_self]
      · rw [if_neg hvu, if_neg hvu, Option.map_none]
    · rw [update_of_ne he]
      apply h.fits.view_congr rfl
      intro x hx
      refine update_of_ne ?_ _ _
      rintro rfl
      exact he (h.fits.inj u v _ hx hat)

theorem writePage (h : TableInv L m env t) (hv : (t.leaf v).has PTE_V = true)
    (hu : (t.leaf v).has PTE_U = true) (hw : (t.leaf v).has PTE_W = true) (off : Nat)
    (bytes : List UInt8) (hm : m' = { m with
      page := update m.page (pte2pa (t.leaf v))
        (Buffer.write (m.page (pte2pa (t.leaf v))) off bytes) }) :
    TableInv L m' env t ∧ Set.EqOn m'.page m.page {x | 0 < env.count x} ∧
      t.view m'.page = (t.view m.page).writePage v off bytes := by
  have hat : t.MapsAt v (pte2pa (t.leaf v)) := ⟨h.user_lt hu, hv, rfl⟩
  have hmay : (t.view m.page).mayWrite v = true := by
    rw [Table.view_mayWrite, Pte.mayWrite, hv, hu, hw]
    rfl
  rw [UserMem.writePage, if_pos hmay]
  exact h.putPage hat (h.fits.writable v _ hat hw) off bytes hm

theorem faultRefused_eq (h : TableInv L m env t) {r : Int} {m₁ : PhysMem}
    (hr : Xv6.cowPageFaultHandler L t.root va m = .ok (r, m₁)) :
    faultRefused L t.root va m = ((t.leaf (va / PGSIZE)).mayWrite && r == -1) := by
  obtain ⟨e, he, hl⟩ := h.leafEntry_eq va
  simp only [faultRefused, he, hr, hl]

theorem userStore_writable (h : TableInv L m env t) (b : UInt8) (tries : Nat)
    (hv : (t.leaf (va / PGSIZE)).has PTE_V = true) (hu : (t.leaf (va / PGSIZE)).has PTE_U = true)
    (hw : (t.leaf (va / PGSIZE)).has PTE_W = true) :
    Wp (userStore L t.root va b (tries + 1)) (fun r m' => r = .stored ∧ TableInv L m' env t ∧
      Set.EqOn m'.page m.page {x | 0 < env.count x} ∧
      t.view m'.page = (t.view m.page).writePage (va / PGSIZE) (va % PGSIZE) [b]) m := by
  obtain ⟨e, he, hl⟩ := h.leafEntry_eq va
  apply wp_bind
  refine ⟨e, m, he, ?_⟩
  beta_reduce
  rw [hl]
  dsimp only
  rw [hv, hu, hw]
  apply wp_bind_modify
  exact wp_pure ⟨rfl, h.writePage hv hu hw _ _ rfl⟩

theorem userStore (h : TableInv L m env t) (va : Nat) (b : UInt8) (tries : Nat) :
    Wp (userStore L t.root va b (tries + 2)) (fun r m' =>
      r = .stored ∧ (t.leaf (va / PGSIZE)).mayWrite = true ∧ (∃ t', TableInv L m' env t' ∧
        t.Agrees t' ∧ t'.view m'.page = (t.view m.page).writePage (va / PGSIZE) (va % PGSIZE) [b]) ∧
        Set.EqOn m'.page m.page {x | 0 < env.count x} ∧
        ((t.leaf (va / PGSIZE)).has PTE_W = true ∨ va ≠ 0) ∨
      r = .killed ∧ m' = m ∧ faultRefused L t.root va m = (t.leaf (va / PGSIZE)).mayWrite ∧
        ((t.leaf (va / PGSIZE)).has PTE_W = true → (t.leaf (va / PGSIZE)).mayWrite = false) ∧
        (va = 0 ∨ (t.leaf (va / PGSIZE)).mayWrite = false ∨ m.freelist = [])) m := by
  by_cases hall : ((t.leaf (va / PGSIZE)).has PTE_V && (t.leaf (va / PGSIZE)).has PTE_U &&
      (t.leaf (va / PGSIZE)).has PTE_W) = true
  · rw [Bool.and_eq_true, Bool.and_eq_true] at hall
    obtain ⟨⟨hv, hu⟩, hw⟩ := hall
    refine (h.userStore_writable b (tries + 1) hv hu hw).mono fun r m' hr => .inl ?_
    obtain ⟨rfl, hinv, heq, hview⟩ := hr
    have hmay : (t.leaf (va / PGSIZE)).mayWrite = true := by
      simp only [Pte.mayWrite, hv, hu, hw, Bool.true_or, Bool.and_self]
    exact ⟨rfl, hmay, ⟨t, hinv, .refl t, hview⟩, heq, .inl hw⟩
  · obtain ⟨e, he, hl⟩ := h.leafEntry_eq va
    apply wp_bind
    refine ⟨e, m, he, ?_⟩
    beta_reduce
    rw [hl]
    rw [if_neg hall]
    have hnw : (t.leaf (va / PGSIZE)).has PTE_W = true → (t.leaf (va / PGSIZE)).mayWrite = false := by
      intro hw
      rw [hw, Bool.and_true, Bool.not_eq_true] at hall
      rw [Pte.mayWrite, hall, Bool.false_and]
    apply wp_bind
    obtain ⟨r, m₁, hrun, hr⟩ := h.cowPageFaultHandler va
    refine ⟨r, m₁, hrun, ?_⟩
    rcases hr with ⟨rfl, rfl, hbad⟩ | ⟨rfl, hne, hlt, hmay, t', hinv, hag, hview, hw', heq⟩
    · rw [if_pos rfl]
      refine wp_pure (.inr ⟨rfl, rfl, ?_, hnw, ?_⟩)
      · rw [h.faultRefused_eq hrun, beq_self_eq_true, Bool.and_true]
      · rcases hbad with hbad | hbad | hbad
        · exact .inl hbad
        · rw [h.fits.leaf_of_ge hbad]
          exact .inr (.inl (by decide))
        · exact .inr hbad
    · rw [if_neg (by decide), ← hag.root]
      have hvu := Pte.mayWrite_access ((hag.mayWrite (va / PGSIZE)).trans hmay)
      refine (hinv.userStore_writable b tries hvu.1 hvu.2 hw').mono fun r m' hr => .inl ?_
      obtain ⟨rfl, hinv', heq', hview'⟩ := hr
      refine ⟨rfl, hmay, ⟨t', hinv', hag, by rw [hview', hview]⟩, fun x hx => ?_, .inr hne⟩
      rw [heq' hx, heq hx]

theorem userLoad (h : TableInv L m env t) (va tries : Nat) :
    Wp (userLoad L t.root va (tries + 1)) (fun r m' => m' = m ∧
      ((∃ b, r = .loaded b ∧ (t.view m.page).load va = some b) ∨
        r = .killed ∧ (t.view m.page).load va = none)) m := by
  obtain ⟨e, he, hl⟩ := h.leafEntry_eq va
  apply wp_bind
  refine ⟨e, m, he, ?_⟩
  beta_reduce
  rw [hl]
  dsimp only
  by_cases hvu : ((t.leaf (va / PGSIZE)).has PTE_V && (t.leaf (va / PGSIZE)).has PTE_U) = true
  · have hr : (t.leaf (va / PGSIZE)).has PTE_R = true :=
      (h.fits.leaf _).readable (Bool.and_eq_true _ _ ▸ hvu).1
    rw [hvu, hr]
    apply wp_bind_get
    refine wp_pure ⟨rfl, .inl ⟨_, rfl, ?_⟩⟩
    rw [UserMem.load, Table.view, if_pos hvu]
    rfl
  · have hmay : (t.leaf (va / PGSIZE)).mayWrite = false := by
      rw [Bool.not_eq_true] at hvu
      rw [Pte.mayWrite, hvu, Bool.false_and]
    rw [Bool.not_eq_true] at hvu
    rw [hvu]
    apply wp_bind
    obtain ⟨r, m₁, hrun, hr⟩ := h.cowPageFaultHandler va
    refine ⟨r, m₁, hrun, ?_⟩
    rcases hr with ⟨rfl, rfl, _⟩ | ⟨_, _, _, hm, _⟩
    · refine wp_pure ⟨rfl, .inr ⟨rfl, ?_⟩⟩
      rw [UserMem.load, Table.view, hvu]
      rfl
    · rw [hmay] at hm
      cases hm

/-- `copyout` does to the memory the process sees what `UserMem.copyout` does, unless the
handler turns down a page of it. -/
theorem copyoutLoop (h : TableInv L m env t) (fuel dstva : Nat) (src : List UInt8) :
    Wp (copyoutLoop L t.root fuel dstva src) (fun r m' => ∃ t', TableInv L m' env t' ∧
      t.Agrees t' ∧ Set.EqOn m'.page m.page {x | 0 < env.count x} ∧ (r = 0 ∨ r = -1) ∧
      (r = 0 ∨ copyoutRefused L t.root fuel dstva src m = false →
        (t'.view m'.page, r) = UserMem.copyout fuel (t.view m.page) dstva src)) m := by
  induction fuel generalizing m t dstva src with
  | zero => exact wp_pure ⟨t, h, .refl t, fun _ _ => rfl, .inl rfl, fun _ => rfl⟩
  | succ fuel ih =>
    rw [Xv6.copyoutLoop]
    by_cases hsrc : src = []
    · rw [if_pos hsrc]
      refine wp_pure ⟨t, h, .refl t, fun _ _ => rfl, .inl rfl, fun _ => ?_⟩
      rw [UserMem.copyout, if_pos hsrc]
    rw [if_neg hsrc]
    apply wp_bind
    obtain ⟨r, m₁, hrun, hr⟩ := h.cowPageFaultHandler dstva
    refine ⟨r, m₁, hrun, ?_⟩
    rcases hr with ⟨rfl, rfl, hbad⟩ | ⟨rfl, hne, hlt, hmay, t₁, hinv, hag, hview, hw, heq⟩
    · rw [if_pos rfl]
      refine wp_pure ⟨t, h, .refl t, fun _ _ => rfl, .inr rfl, fun hor => ?_⟩
      have hnot : (t.leaf (dstva / PGSIZE)).mayWrite = false := by
        rcases hor with hor | hor
        · cases hor
        · rw [copyoutRefused, if_neg hsrc] at hor
          simp only [hrun, if_true, h.faultRefused_eq hrun, beq_self_eq_true, Bool.and_true] at hor
          exact hor
      rw [UserMem.copyout, if_neg hsrc, Table.view_mayWrite, hnot]
      rfl
    · rw [if_neg (by decide), ← hag.root]
      have hmay' := (hag.mayWrite (dstva / PGSIZE)).trans hmay
      obtain ⟨hv, hu⟩ := Pte.mayWrite_access hmay'
      have haddr := hinv.walkaddr_eq (pgRoundDown dstva)
      rw [pgRoundDown_div, hv, hu] at haddr
      apply wp_bind
      refine ⟨_, m₁, haddr, ?_⟩
      rw [sub_pgRoundDown, pgRoundDown_add]
      apply wp_bind_modify
      generalize hn : min (PGSIZE - dstva % PGSIZE) src.length = n
      obtain ⟨hinv₂, heq₂, hview₂⟩ := hinv.writePage hv hu hw (dstva % PGSIZE) (src.take n) rfl
      refine (ih hinv₂ ((dstva / PGSIZE + 1) * PGSIZE) (src.drop n)).mono fun r m' hr => ?_
      obtain ⟨t', hinv', hag', heq', hr', hcopy⟩ := hr
      refine ⟨t', hinv', hag.trans hag', fun x hx => ?_, hr', fun hor => ?_⟩
      · rw [heq' hx, heq₂ hx, heq hx]
      · rw [hview₂, hview] at hcopy
        rw [UserMem.copyout, if_neg hsrc, Table.view_mayWrite, hmay]
        rw [if_pos rfl, hn]
        apply hcopy
        rcases hor with hor | hor
        · exact .inl hor
        · rw [copyoutRefused, if_neg hsrc] at hor
          rw [← hag.root] at hrun
          simp only [hrun, haddr, sub_pgRoundDown, pgRoundDown_add, hn, Bool.and_self, if_true] at hor
          exact .inr hor

theorem copyinLoop (h : TableInv L m env t) (fuel srcva len : Nat) :
    Wp (copyinLoop t.root fuel srcva len) (fun r m' => m' = m ∧
      r = UserMem.copyin fuel (t.view m.page) srcva len) m := by
  induction fuel generalizing srcva len with
  | zero => exact wp_pure ⟨rfl, rfl⟩
  | succ fuel ih =>
    rw [Xv6.copyinLoop, UserMem.copyin]
    by_cases hlen : len = 0
    · rw [if_pos hlen, if_pos hlen]
      exact wp_pure ⟨rfl, rfl⟩
    rw [if_neg hlen, if_neg hlen]
    have haddr := h.walkaddr_eq (pgRoundDown srcva)
    rw [pgRoundDown_div] at haddr
    dsimp only
    rw [sub_pgRoundDown, pgRoundDown_add]
    apply wp_bind
    refine ⟨_, m, haddr, ?_⟩
    by_cases hvu : ((t.leaf (srcva / PGSIZE)).has PTE_V && (t.leaf (srcva / PGSIZE)).has PTE_U) = true
    · have hview : t.view m.page (srcva / PGSIZE) = some (m.page (pte2pa (t.leaf (srcva / PGSIZE))),
          (t.leaf (srcva / PGSIZE)).has PTE_W || (t.leaf (srcva / PGSIZE)).has PTE_COW) := if_pos hvu
      rw [if_pos hvu, hview]
      apply wp_bind_get
      refine (ih _ _).bind fun r m' hr => ?_
      obtain ⟨rfl, rfl⟩ := hr
      cases UserMem.copyin fuel (t.view m'.page) ((srcva / PGSIZE + 1) * PGSIZE)
          (len - min (PGSIZE - srcva % PGSIZE) len) with
      | none => exact wp_pure ⟨rfl, rfl⟩
      | some rest => exact wp_pure ⟨rfl, rfl⟩
    · have hview : t.view m.page (srcva / PGSIZE) = none := if_neg hvu
      rw [if_neg hvu, hview]
      exact wp_pure ⟨rfl, rfl⟩

end TableInv

namespace UserMem

variable {um : UserMem} {va max n : Nat} {bytes s : List UInt8} {page : Buffer} {w : Bool}

/-- The string `s` and its NUL stand at `va`. -/
def HasString (um : UserMem) : Nat → List UInt8 → Prop
  | va, [] => um.load va = some 0
  | va, b :: s => um.load va = some b ∧ b ≠ 0 ∧ um.HasString (va + 1) s

theorem HasString.not_mem (h : um.HasString va s) : 0 ∉ s := by
  induction s generalizing va with
  | nil => simp
  | cons b s ih => simpa [h.2.1.symm] using ih h.2.2

theorem readString_iff : um.readString va max = some s ↔ um.HasString va s ∧ s.length < max := by
  induction max generalizing va s with
  | zero => simp [readString]
  | succ max ih =>
    rw [readString]
    cases hl : um.load va with
    | none => cases s <;> simp [HasString, hl]
    | some b =>
      by_cases hb : b = 0
      · cases s with
        | nil => simp [HasString, hl, hb]
        | cons c s => simp [HasString, hl, hb]; grind
      · cases s with
        | nil => simp [HasString, hl, hb]
        | cons c s => simp [HasString, hl, hb, ih]; grind

theorem readString_append (hload : ∀ j < bytes.length, um.load (va + j) = bytes[j]?)
    (hle : bytes.length ≤ max) : um.readString va max =
      if 0 ∈ bytes then some (bytes.takeWhile (· ≠ 0))
      else (um.readString (va + bytes.length) (max - bytes.length)).map (bytes ++ ·) := by
  induction bytes generalizing va max with
  | nil => simp
  | cons b bytes ih =>
    rw [List.length_cons] at hle hload
    obtain ⟨max, rfl⟩ : ∃ k, max = k + 1 := ⟨max - 1, by omega⟩
    have hb : um.load va = some b := hload 0 (by omega)
    have hrest : ∀ j < bytes.length, um.load (va + 1 + j) = bytes[j]? := by
      intro j hj
      rw [Nat.add_assoc, Nat.add_comm 1 j, hload (j + 1) (by omega), List.getElem?_cons_succ]
    rw [readString, hb]
    dsimp only
    by_cases hz : b = 0
    · simp [hz]
    · rw [if_neg hz, ih hrest (by omega), List.length_cons, Nat.add_sub_add_right,
        show va + 1 + bytes.length = va + (bytes.length + 1) by omega]
      have hiff : 0 ∈ b :: bytes ↔ 0 ∈ bytes := by
        rw [List.mem_cons, or_iff_right (fun he => hz he.symm)]
      by_cases hn : 0 ∈ bytes
      · rw [if_pos hn, if_pos (hiff.mpr hn), List.takeWhile_cons_of_pos (by simpa using hz)]
        rfl
      · rw [if_neg hn, if_neg (fun h => hn (hiff.mp h)), Option.map_map]
        rfl

theorem load_read (hp : um (va / PGSIZE) = some (page, w))
    (hn : n ≤ PGSIZE - va % PGSIZE) (j : Nat) (hj : j < (Buffer.read page (va % PGSIZE) n).length) :
    um.load (va + j) = (Buffer.read page (va % PGSIZE) n)[j]? := by
  rw [List.getElem?_eq_getElem hj, Buffer.getElem_read]
  rw [Buffer.length_read] at hj
  have hdiv : (va + j) / PGSIZE = va / PGSIZE ∧ (va + j) % PGSIZE = va % PGSIZE + j := by
    simp only [PGSIZE] at *
    omega
  rw [load, hdiv.1, hdiv.2, hp]
  rfl

theorem readString_page (hp : um (va / PGSIZE) = some (page, w))
    (hn : min (PGSIZE - va % PGSIZE) max = n) : um.readString va max =
      if 0 ∈ Buffer.read page (va % PGSIZE) n then
        some ((Buffer.read page (va % PGSIZE) n).takeWhile (· ≠ 0))
      else (um.readString ((va / PGSIZE + 1) * PGSIZE) (max - n)).map
        (Buffer.read page (va % PGSIZE) n ++ ·) := by
  have hlen := Buffer.length_read page (va % PGSIZE) n
  rw [readString_append (load_read hp (n := n) (by omega)) (by omega), hlen]
  by_cases hshort : max ≤ PGSIZE - va % PGSIZE
  · rw [show max - n = 0 by omega]
    rfl
  · have hnext : va + n = (va / PGSIZE + 1) * PGSIZE := by
      simp only [PGSIZE] at *
      omega
    rw [hnext]

end UserMem

theorem copyBytes_eq (page : Buffer) (n p : Nat) (out : List UInt8) : copyBytes page n p out =
    if 0 ∈ Buffer.read page p n then
      (out ++ (Buffer.read page p n).takeWhile (· ≠ 0) ++ [0], true)
    else (out ++ Buffer.read page p n, false) := by
  induction n generalizing p out with
  | zero => simp [copyBytes, Buffer.read]
  | succ n ih =>
    have hread : Buffer.read page p (n + 1) = page p :: Buffer.read page (p + 1) n := by
      simp only [Buffer.read, List.range_succ_eq_map, List.map_cons, List.map_map, Nat.add_zero]
      congr 2
      funext i
      simp only [Function.comp, Nat.succ_eq_add_one]
      congr 1
      omega
    rw [copyBytes, hread]
    by_cases hz : page p = 0
    · simp [hz]
    · rw [if_neg hz, ih]
      have hiff : 0 ∈ page p :: Buffer.read page (p + 1) n ↔ 0 ∈ Buffer.read page (p + 1) n := by
        rw [List.mem_cons, or_iff_right (fun he => hz he.symm)]
      rw [List.takeWhile_cons_of_pos (by simpa using hz)]
      simp only [hiff, List.append_assoc, List.cons_append, List.nil_append]

namespace TableInv

theorem copyinstrLoop (h : TableInv L m env t) (fuel srcva max : Nat)
    (out : List UInt8) (hfuel : max ≤ fuel) :
    Wp (copyinstrLoop t.root fuel srcva max out) (fun r m' => m' = m ∧
      (∃ bytes, r.out = out ++ bytes ∧ bytes.length ≤ max) ∧
      (match (t.view m.page).readString srcva max with
        | some s => r.ret = 0 ∧ r.out = out ++ s ++ [0]
        | none => r.ret = -1) ∧
      (∀ x, srcva ≤ x → (t.view m.page).load x = some 0 → ∀ va ∈ r.pages, va ≤ x) ∧
      (max = 0 → r.pages = [])) m := by
  induction fuel generalizing srcva max out with
  | zero =>
    obtain rfl : max = 0 := by omega
    exact wp_pure ⟨rfl, ⟨[], by simp, le_rfl⟩, rfl, by simp, fun _ => rfl⟩
  | succ fuel ih =>
    rw [Xv6.copyinstrLoop]
    by_cases hz : max = 0
    · rw [if_pos hz, hz]
      exact wp_pure ⟨rfl, ⟨[], by simp, le_rfl⟩, rfl, by simp, fun _ => rfl⟩
    rw [if_neg hz]
    have hround : pgRoundDown srcva ≤ srcva := Nat.div_mul_le_self ..
    have haddr := h.walkaddr_eq (pgRoundDown srcva)
    rw [pgRoundDown_div] at haddr
    dsimp only
    rw [sub_pgRoundDown, pgRoundDown_add]
    apply wp_bind
    refine ⟨_, m, haddr, ?_⟩
    by_cases hvu : ((t.leaf (srcva / PGSIZE)).has PTE_V && (t.leaf (srcva / PGSIZE)).has PTE_U) = true
    · have hview : t.view m.page (srcva / PGSIZE) = some (m.page (pte2pa (t.leaf (srcva / PGSIZE))),
          (t.leaf (srcva / PGSIZE)).has PTE_W || (t.leaf (srcva / PGSIZE)).has PTE_COW) := if_pos hvu
      rw [if_pos hvu]
      apply wp_bind_get
      generalize hn : min (PGSIZE - srcva % PGSIZE) max = n
      have hlen := Buffer.length_read (m.page (pte2pa (t.leaf (srcva / PGSIZE)))) (srcva % PGSIZE) n
      rw [copyBytes_eq, UserMem.readString_page hview hn]
      by_cases hnul : 0 ∈ Buffer.read (m.page (pte2pa (t.leaf (srcva / PGSIZE)))) (srcva % PGSIZE) n
      · rw [if_pos hnul, if_pos hnul]
        refine wp_pure ⟨rfl, ⟨_, List.append_assoc .., ?_⟩, ⟨rfl, rfl⟩, ?_, fun h0 => absurd h0 hz⟩
        · have hstr := UserMem.readString_page hview hn
          rw [if_pos hnul, UserMem.readString_iff] at hstr
          rw [List.length_append, List.length_singleton]
          exact hstr.2
        · intro x hx _ va hva
          rw [List.mem_singleton] at hva
          omega
      · rw [if_neg hnul, if_neg hnul]
        have hva : srcva < MAXVA := by
          by_contra hge
          rw [h.fits.leaf_of_ge (by omega)] at hvu
          cases hvu
        have hmod : (srcva / PGSIZE + 1) * PGSIZE % 2 ^ 64 = (srcva / PGSIZE + 1) * PGSIZE := by
          simp only [PGSIZE, MAXVA] at *
          omega
        have hpos : 0 < PGSIZE - srcva % PGSIZE := by
          simp only [PGSIZE]
          omega
        rw [hmod]
        refine (ih _ _ _ (by omega)).bind fun r m' hr => ?_
        obtain ⟨rfl, ⟨bytes, hout, hle⟩, hres, hpages, hnone⟩ := hr
        refine wp_pure ⟨rfl, ⟨_ ++ bytes, hout.trans (List.append_assoc ..), ?_⟩, ?_, ?_,
          fun h0 => absurd h0 hz⟩
        · rw [List.length_append, hlen]
          omega
        · cases hs : (t.view m'.page).readString ((srcva / PGSIZE + 1) * PGSIZE) (max - n) with
          | none =>
            rw [hs] at hres
            exact hres
          | some s =>
            rw [hs] at hres
            refine ⟨hres.1, hres.2.trans ?_⟩
            simp only [List.append_assoc]
        · intro x hx hload va hva
          rcases List.mem_cons.mp hva with rfl | hva
          · omega
          by_cases hmax : max - n = 0
          · rw [hnone hmax] at hva
            cases hva
          · refine hpages x ?_ hload va hva
            -- a NUL further down in this page would have been found
            by_contra hlt
            have hin : x - srcva < n ∧ srcva + (x - srcva) = x := by
              simp only [PGSIZE] at *
              omega
            have hget := UserMem.load_read hview (n := n) (by omega) (x - srcva) (by omega)
            rw [hin.2, hload] at hget
            exact hnul (List.mem_of_getElem? hget.symm)
    · have hview : t.view m.page (srcva / PGSIZE) = none := if_neg hvu
      rw [if_neg hvu]
      refine wp_pure ⟨rfl, ⟨[], by simp, by simp⟩, ?_, ?_, fun h0 => absurd h0 hz⟩
      · obtain ⟨k, rfl⟩ : ∃ k, max = k + 1 := ⟨max - 1, by omega⟩
        rw [UserMem.readString, UserMem.load, hview]
        rfl
      · intro x hx _ va hva
        rw [List.mem_singleton] at hva
        omega

end TableInv

end Xv6
