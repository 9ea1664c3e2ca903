import Xv6.CowFault
import Xv6.Space

/-! Calls of `cow_page_fault_handler` that run at the same time on several CPUs. A call is
cut where it takes or releases a lock; between two sections another CPU may run. -/

namespace Xv6

open Function StateProg

variable {L : Layout} {m' : PhysMem} {l : List Bool}

inductive CowPoint where
  | start
  | taken (p : PtePtr) (pte : Pte) (mem : Nat)
  | counted (p : PtePtr) (pte : Pte) (mem : Nat)
  | mapped (pte : Pte) (mem : Nat)
  | copied (pte : Pte)
  | dropped (pa : Nat)
  | done (r : Int)

def cowSection (L : Layout) (pagetable va : Nat) : CowPoint → Kernel CowPoint
  | .start =>
    if va = 0 ∨ va ≥ MAXVA then pure (.done (-1))
    else do
      match ← walk pagetable va false with
      | none => pure (.done (-1))
      | some p => do
        let pte ← readPte p
        if !pte.has PTE_V then pure (.done (-1))
        else if !pte.has PTE_U then pure (.done (-1))
        else if pte.has PTE_W then pure (.done 0)
        else if !pte.has PTE_COW then pure (.done (-1))
        else
          let m ← get
          match m.freelist with
          | [] => pure (.done (-1))
          | r :: rest =>
            modify fun m => { m with freelist := rest }
            pure (.taken p pte r)
  | .taken p pte mem => do
    memset mem 5
    increaseCount mem
    pure (.counted p pte mem)
  | .counted p pte mem => do
    writePte p (cowEntry pte mem)
    pure (.mapped pte mem)
  | .mapped pte mem => do
    let m ← get
    setPage mem (m.page (pte2pa pte))
    pure (.copied pte)
  | .copied pte => do
    let pa := pte2pa pte
    if pa % PGSIZE ≠ 0 ∨ pa < L.kend ∨ PHYSTOP ≤ pa then throw .kfree
    else
      let res ← decreaseCount pa
      if res < 0 then throw .kfreeCounter
      else if res > 0 then pure (.done 0)
      else pure (.dropped pa)
  | .dropped pa => do
    memset pa 1
    modify fun m => { m with freelist := pa :: m.freelist }
    pure (.done 0)
  | .done r => pure (.done r)

def cowSections (L : Layout) (pagetable va : Nat) : Nat → CowPoint → Kernel CowPoint
  | 0, c => pure c
  | n + 1, c => do
    let c ← cowSection L pagetable va c
    cowSections L pagetable va n c

theorem cowSections_succ (pagetable va n : Nat) (c : CowPoint) :
    cowSections L pagetable va (n + 1) c =
      cowSection L pagetable va c >>= cowSections L pagetable va n := rfl

theorem cowSections_done (pagetable va : Nat) (r : Int) : ∀ n,
    cowSections L pagetable va n (.done r) = pure (.done r)
  | 0 => rfl
  | n + 1 => by
    unfold cowSections
    exact cowSections_done pagetable va r n

theorem cowSections_copied (pagetable va : Nat) (pte : Pte) :
    cowSections L pagetable va 2 (.copied pte) = (do
      kfree L (pte2pa pte)
      pure (.done 0)) := by
  simp only [cowSections, cowSection, kfree]
  split
  · rfl
  · simp only [bind_assoc]
    refine bind_congr fun res => ?_
    split
    · rfl
    · split
      · simp only [pure_bind]
      · simp only [bind_assoc, pure_bind]

theorem cowSections_taken (pagetable va : Nat) (p : PtePtr) (pte : Pte) (mem : Nat) :
    cowSections L pagetable va 5 (.taken p pte mem) = (do
      memset mem 5
      increaseCount mem
      writePte p (cowEntry pte mem)
      let m ← get
      setPage mem (m.page (pte2pa pte))
      kfree L (pte2pa pte)
      pure (.done 0)) := by
  rw [cowSections_succ, cowSection]
  simp only [bind_assoc, pure_bind]
  refine bind_congr fun _ => bind_congr (fun _ => ?_)
  rw [cowSections_succ, cowSection]
  simp only [bind_assoc, pure_bind]
  refine bind_congr fun _ => ?_
  rw [cowSections_succ, cowSection]
  simp only [bind_assoc, pure_bind, cowSections_copied]

theorem cowSections_eq (pagetable va : Nat) :
    cowSections L pagetable va 6 .start = CowPoint.done <$> cowPageFaultHandler L pagetable va := by
  unfold cowPageFaultHandler cowSections
  simp only [cowSection]
  split
  · simp only [pure_bind, cowSections_done, map_pure]
  · simp only [bind_assoc, map_bind]
    refine bind_congr fun o => ?_
    cases o with
    | none => simp only [pure_bind, cowSections_done, map_pure]
    | some p =>
      simp only [bind_assoc, map_bind]
      refine bind_congr fun pte => ?_
      cases pte.has PTE_V with
      | false => simp only [Bool.not_false, if_true, pure_bind, cowSections_done, map_pure]
      | true =>
      cases pte.has PTE_U with
      | false => simp [cowSections_done]
      | true =>
      cases pte.has PTE_W with
      | true => simp [cowSections_done]
      | false =>
      cases pte.has PTE_COW with
      | false => simp [cowSections_done]
      | true =>
        simp only [Bool.not_true, Bool.false_eq_true, if_false, kalloc, bind_assoc, map_bind]
        refine bind_congr fun m => ?_
        cases m.freelist with
        | nil => simp only [pure_bind, cowSections_done, map_pure]
        | cons r rest =>
          simp only [bind_assoc, pure_bind, cowSections_taken, map_bind, map_pure]
          rfl

/-- Two calls, on two page tables; the schedule says whose section comes next. -/
def cowRace (L : Layout) (pagetable₁ va₁ pagetable₂ va₂ : Nat) :
    List Bool → CowPoint → CowPoint → Kernel (CowPoint × CowPoint)
  | [], a, b => pure (a, b)
  | true :: l, a, b => do
    let a ← cowSection L pagetable₁ va₁ a
    cowRace L pagetable₁ va₁ pagetable₂ va₂ l a b
  | false :: l, a, b => do
    let b ← cowSection L pagetable₂ va₂ b
    cowRace L pagetable₁ va₁ pagetable₂ va₂ l a b

structure CowShare where
  p : PtePtr
  pte : Pte
  mem : Nat

namespace CowShare

def point (x : CowShare) : Nat → CowPoint
  | 0 => .start
  | 1 => .taken x.p x.pte x.mem
  | 2 => .counted x.p x.pte x.mem
  | 3 => .mapped x.pte x.mem
  | 4 => .copied x.pte
  | 5 => .dropped (pte2pa x.pte)
  | _ => .done 0

def pages (x : CowShare) (old : Buffer) (i : Nat) (page : Nat → Buffer) (a : Nat) : Buffer :=
  if a = x.mem ∧ 2 ≤ i then if 4 ≤ i then old else fun _ => 5
  else if a = x.p.page ∧ 3 ≤ i then setPteAt (page a) x.p.index (cowEntry x.pte x.mem)
  else page a

def counts (x : CowShare) (i : Nat) (counter : Nat → UInt8) (a : Nat) : UInt8 :=
  if a = pa2cowIndex x.mem ∧ 2 ≤ i then counter a + 1 else counter a

structure Apart (L : Layout) (m₀ : PhysMem) (q : Nat) (x y : CowShare) : Prop where
  px : pte2pa x.pte = q
  py : pte2pa y.pte = q
  range : L.InRange q
  shared : 2 ≤ (m₀.counter (pa2cowIndex q)).toNat
  page : x.p.page ≠ y.p.page
  mem : x.mem ≠ y.mem
  page_mem : x.p.page ≠ y.mem
  mem_page : x.mem ≠ y.p.page
  page_x : x.p.page ≠ x.mem
  page_y : y.p.page ≠ y.mem
  q_x : q ≠ x.mem ∧ q ≠ x.p.page
  q_y : q ≠ y.mem ∧ q ≠ y.p.page
  index : pa2cowIndex x.mem ≠ pa2cowIndex y.mem
  index_x : pa2cowIndex q ≠ pa2cowIndex x.mem
  index_y : pa2cowIndex q ≠ pa2cowIndex y.mem

variable {m₀ : PhysMem} {q i j : Nat} {x y : CowShare}

theorem Apart.symm (h : Apart L m₀ q x y) : Apart L m₀ q y x where
  px := h.py
  py := h.px
  range := h.range
  shared := h.shared
  page := h.page.symm
  mem := h.mem.symm
  page_mem := h.mem_page.symm
  mem_page := h.page_mem.symm
  page_x := h.page_y
  page_y := h.page_x
  q_x := h.q_y
  q_y := h.q_x
  index := h.index.symm
  index_x := h.index_y
  index_y := h.index_x

def freed (m₀ : PhysMem) (q i j : Nat) : Bool :=
  decide (m₀.counter (pa2cowIndex q) = 2 ∧ 6 ≤ i ∧ 6 ≤ j)

def racing (m₀ : PhysMem) (q : Nat) (x y : CowShare) (i j : Nat) : PhysMem where
  page := x.pages (m₀.page q) i (y.pages (m₀.page q) j
    (fun a => if a = q ∧ freed m₀ q i j then fun _ => 1 else m₀.page a))
  counter := x.counts i (y.counts j (fun a =>
    if a = pa2cowIndex q then
      m₀.counter a - (if 5 ≤ i then 1 else 0) - (if 5 ≤ j then 1 else 0)
    else m₀.counter a))
  freelist := (if freed m₀ q i j then [q] else []) ++
    m₀.freelist.drop ((if 1 ≤ i then 1 else 0) + if 1 ≤ j then 1 else 0)

theorem pages_comm (h : Apart L m₀ q x y) (old : Buffer) (page : Nat → Buffer) :
    x.pages old i (y.pages old j page) = y.pages old j (x.pages old i page) := by
  funext a
  simp only [pages]
  by_cases h1 : a = x.mem
  · subst h1
    simp only [h.mem, h.mem_page, h.page_x.symm, false_and, if_false]
  · by_cases h2 : a = x.p.page
    · subst h2
      simp only [h1, h.page_mem, h.page, false_and, if_false]
    · simp only [h1, h2, false_and, if_false]

theorem counts_comm (h : Apart L m₀ q x y) (counter : Nat → UInt8) :
    x.counts i (y.counts j counter) = y.counts j (x.counts i counter) := by
  funext a
  simp only [counts]
  by_cases h1 : a = pa2cowIndex x.mem
  · subst h1
    simp only [h.index, false_and, if_false]
  · simp only [h1, false_and, if_false]

theorem racing_comm (h : Apart L m₀ q x y) : racing m₀ q x y i j = racing m₀ q y x j i := by
  have hf : freed m₀ q i j = freed m₀ q j i := by
    simp only [freed, and_comm]
  unfold racing
  rw [pages_comm h, counts_comm h, hf, Nat.add_comm]
  congr 4
  funext a
  split
  · grind
  · rfl

theorem racing_page_q (h : Apart L m₀ q x y) (hf : freed m₀ q i j = false) :
    (racing m₀ q x y i j).page q = m₀.page q := by
  simp only [racing, pages, h.q_x.1, h.q_x.2, h.q_y.1, h.q_y.2, hf, false_and, if_false,
    Bool.false_eq_true, and_false]

theorem ext_fields {m : PhysMem} (hp : m.page = m'.page) (hc : m.counter = m'.counter)
    (hf : m.freelist = m'.freelist) : m = m' := by
  cases m
  cases m'
  simp only at hp hc hf
  rw [hp, hc, hf]

theorem freed_lt (hi : i < 6) : freed m₀ q i j = false := by
  simp only [freed, decide_eq_false_iff_not]
  omega

section Steps

variable {pagetable va : Nat}

theorem step_counted :
    cowSection L pagetable va (x.point 1) (racing m₀ q x y 1 j) =
      .ok (x.point 2, racing m₀ q x y 2 j) := by
  refine congrArg (fun m => Except.ok (x.point 2, m)) (ext_fields ?_ ?_ ?_)
  · funext a
    by_cases ha : a = x.mem
    · subst ha
      simp [racing, pages]
    · simp [racing, pages, ha, freed_lt]
  · funext a
    by_cases ha : a = pa2cowIndex x.mem
    · subst ha
      simp [racing, counts]
    · simp [racing, counts, ha]
  · simp [racing, freed_lt]

theorem step_mapped (h : Apart L m₀ q x y) :
    cowSection L pagetable va (x.point 2) (racing m₀ q x y 2 j) =
      .ok (x.point 3, racing m₀ q x y 3 j) := by
  refine congrArg (fun m => Except.ok (x.point 3, m)) (ext_fields ?_ ?_ ?_)
  · funext a
    change update _ x.p.page _ a = _
    by_cases ha : a = x.p.page
    · subst ha
      simp [racing, pages, h.page_x, freed_lt]
    · simp [racing, pages, ha, freed_lt]
  · funext a
    simp [PhysMem.setPte, racing, counts]
  · simp [PhysMem.setPte, racing, freed_lt]

theorem step_copied (h : Apart L m₀ q x y) :
    cowSection L pagetable va (x.point 3) (racing m₀ q x y 3 j) =
      .ok (x.point 4, racing m₀ q x y 4 j) := by
  refine congrArg (fun m => Except.ok (x.point 4, m)) (ext_fields ?_ ?_ ?_)
  · funext a
    rw [h.px, racing_page_q h (freed_lt (by decide))]
    by_cases ha : a = x.mem
    · subst ha
      simp [racing, pages]
    · simp [racing, pages, ha, freed_lt]
  · funext a
    simp [racing, counts]
  · simp [racing, freed_lt]

theorem racing_counter (h : Apart L m₀ q x y) :
    (racing m₀ q x y i j).counter (pa2cowIndex q) =
      m₀.counter (pa2cowIndex q) - (if 5 ≤ i then 1 else 0) - (if 5 ≤ j then 1 else 0) := by
  simp only [racing, counts, h.index_x, h.index_y, false_and, if_false, if_true]

theorem decrease_racing (h : Apart L m₀ q x y) (hi : 5 ≤ i) (hf : freed m₀ q i j = false) :
    { racing m₀ q x y 4 j with
      counter := update (racing m₀ q x y 4 j).counter (pa2cowIndex q)
        ((racing m₀ q x y 4 j).counter (pa2cowIndex q) - 1) } = racing m₀ q x y i j := by
  have h4 : freed m₀ q 4 j = false := freed_lt (by decide)
  have hle : ∀ k, k ≤ 4 → k ≤ i := fun k hk => by omega
  refine ext_fields ?_ ?_ ?_
  · funext a
    simp [racing, pages, hf, h4, hle]
  · funext a
    change update _ (pa2cowIndex q) _ a = _
    by_cases ha : a = pa2cowIndex q
    · subst ha
      rw [update_self, racing_counter h, racing_counter h]
      grind
    · rw [update_of_ne ha]
      simp [racing, counts, ha, hle]
  · simp [racing, hf, h4, hle]

/-- The stages that two calls can have reached together. Only the one that decreases the
count last finds 0. -/
structure Together (m₀ : PhysMem) (q i j : Nat) : Prop where
  hi : i ≤ 6
  hj : j ≤ 6
  left : i = 5 → j = 6 ∧ m₀.counter (pa2cowIndex q) = 2
  right : j = 5 → i = 6 ∧ m₀.counter (pa2cowIndex q) = 2

theorem Together.symm (h : Together m₀ q i j) : Together m₀ q j i := ⟨h.hj, h.hi, h.right, h.left⟩

theorem step_decrease (h : Apart L m₀ q x y) (ht : Together m₀ q 4 j) :
    Wp (cowSection L pagetable va (x.point 4)) (fun c m => ∃ i, 5 ≤ i ∧ Together m₀ q i j ∧
      c = x.point i ∧ m = racing m₀ q x y i j) (racing m₀ q x y 4 j) := by
  obtain ⟨h1, h2, h3⟩ := h.range
  have hj5 : j ≠ 5 := fun he => by have := (ht.right he).1; omega
  have hj := ht.hj
  have hshared := h.shared
  have hone : (1 : UInt8).toNat = 1 := rfl
  have hcount : ((racing m₀ q x y 4 j).counter (pa2cowIndex q) - 1).toNat =
      (m₀.counter (pa2cowIndex q)).toNat - (if 5 ≤ j then 2 else 1) := by
    rw [racing_counter h, if_neg (by decide), UInt8.sub_zero]
    split
    · rw [UInt8.toNat_sub_of_le, UInt8.toNat_sub_of_le, hone]
      · omega
      · rw [UInt8.le_iff_toNat_le]
        omega
      · rw [UInt8.le_iff_toNat_le, UInt8.toNat_sub_of_le, hone]
        · omega
        · rw [UInt8.le_iff_toNat_le]
          omega
    · rw [UInt8.sub_zero, UInt8.toNat_sub_of_le, hone]
      rw [UInt8.le_iff_toNat_le]
      omega
  simp only [point, cowSection, h.px]
  rw [if_neg (by omega)]
  apply wp_bind
  apply wp_bind_modify
  apply wp_bind_get
  apply wp_pure
  rw [if_neg (by omega)]
  simp only [update_self, hcount]
  by_cases hlast : (m₀.counter (pa2cowIndex q)).toNat - (if 5 ≤ j then 2 else 1) = 0
  · have hj6 : j = 6 := by
      split at hlast
      · omega
      · omega
    subst hj6
    have hc : m₀.counter (pa2cowIndex q) = 2 := by
      apply UInt8.toNat.inj
      rw [if_pos (by decide)] at hlast
      have : (2 : UInt8).toNat = 2 := rfl
      omega
    rw [hlast, if_neg (by decide)]
    refine wp_pure ⟨5, by decide, ⟨by decide, by decide, fun _ => ⟨rfl, hc⟩, fun he => ?_⟩, ?_,
      decrease_racing h (by decide) (freed_lt (by decide))⟩
    · contradiction
    · rfl
  · rw [if_pos (by omega)]
    refine wp_pure ⟨6, by decide, ⟨by decide, hj, fun he => ?_, fun he => absurd he hj5⟩, rfl,
      decrease_racing h (by decide) ?_⟩
    · contradiction
    · simp only [freed, decide_eq_false_iff_not]
      rintro ⟨hc, -, h6⟩
      rw [hc, if_pos (by omega)] at hlast
      exact hlast rfl

theorem step_free (h : Apart L m₀ q x y) (ht : Together m₀ q 5 j) :
    cowSection L pagetable va (x.point 5) (racing m₀ q x y 5 j) =
      .ok (x.point 6, racing m₀ q x y 6 j) := by
  obtain ⟨rfl, hc⟩ := ht.left rfl
  have hf : freed m₀ q 6 6 = true := by simp [freed, hc]
  refine congrArg (fun m => Except.ok (x.point 6, m)) (ext_fields ?_ ?_ ?_)
  · funext a
    rw [h.px]
    by_cases ha : a = q
    · subst ha
      simp [racing, pages, hf, h.q_x, h.q_y]
    · simp [racing, pages, ha]
  · funext a
    simp [racing, counts]
  · change pte2pa x.pte :: _ = _
    rw [h.px]
    simp [racing, hf, freed_lt]

theorem step_left (h : Apart L m₀ q x y) (ht : Together m₀ q i j) (hi : 1 ≤ i) :
    Wp (cowSection L pagetable va (x.point i)) (fun c m => ∃ i', 1 ≤ i' ∧ Together m₀ q i' j ∧
      c = x.point i' ∧ m = racing m₀ q x y i' j) (racing m₀ q x y i j) := by
  have hnext : ∀ {k}, i < 4 → k = i + 1 → Together m₀ q k j := by
    rintro k hlt rfl
    exact ⟨by omega, ht.hj, by omega, fun he => by have := (ht.right he).1; omega⟩
  have hle := ht.hi
  obtain rfl | rfl | rfl | rfl | rfl | rfl :
    i = 1 ∨ i = 2 ∨ i = 3 ∨ i = 4 ∨ i = 5 ∨ i = 6 := by omega
  · exact ⟨_, _, step_counted, 2, by decide, hnext (by decide) rfl, rfl, rfl⟩
  · exact ⟨_, _, step_mapped h, 3, by decide, hnext (by decide) rfl, rfl, rfl⟩
  · exact ⟨_, _, step_copied h, 4, by decide, hnext (by decide) rfl, rfl, rfl⟩
  · refine (step_decrease h ht).mono ?_
    rintro c m ⟨i', hi', ht', hc, hm⟩
    exact ⟨i', by omega, ht', hc, hm⟩
  · refine ⟨_, _, step_free h ht, 6, by decide, ?_, rfl, rfl⟩
    exact ⟨by decide, ht.hj, fun he => absurd he (by decide), fun he => ⟨rfl, (ht.left rfl).2⟩⟩
  · exact wp_pure ⟨6, by decide, ht, rfl, rfl⟩

end Steps

theorem point_done {r : Int} (h : x.point i = .done r) (hi : i ≤ 6) : i = 6 ∧ r = 0 := by
  match i, h with
  | 6, h => exact ⟨rfl, (CowPoint.done.inj h).symm⟩
  | i + 7, _ => omega

end CowShare

structure Shares (t : Table) (va : Nat) (p : PtePtr) : Prop where
  pos : va ≠ 0
  lt : va < MAXVA
  ptr : t.ptr (va / PGSIZE) = some p
  valid : (t.leaf (va / PGSIZE)).has PTE_V = true
  user : (t.leaf (va / PGSIZE)).has PTE_U = true
  readOnly : (t.leaf (va / PGSIZE)).has PTE_W = false
  cow : (t.leaf (va / PGSIZE)).has PTE_COW = true

variable {t t₁ t₂ : Table} {va va₁ va₂ : Nat} {p p₁ p₂ : PtePtr} {m m₀ : PhysMem} {q : Nat}
  {c : CowPoint × CowPoint}

theorem Shares.start (h : Shares t va p) (hr : t.Rep m.page) :
    cowSection L t.root va .start m =
      match m.freelist with
      | [] => .ok (.done (-1), m)
      | r :: rest => .ok (.taken p (t.leaf (va / PGSIZE)) r, { m with freelist := rest }) := by
  have hw : Wp (cowSection L t.root va .start) (fun c m' =>
      (c, m') = match m.freelist with
        | [] => (.done (-1), m)
        | r :: rest => (.taken p (t.leaf (va / PGSIZE)) r, { m with freelist := rest })) m := by
    unfold cowSection
    rw [if_neg (by have := h.pos; have := h.lt; omega)]
    apply hr.wp_walk h.lt
    simp only [h.ptr]
    apply hr.wp_readPte h.ptr
    simp only [h.valid, h.user, h.readOnly, h.cow, Bool.not_true, Bool.false_eq_true, if_false]
    apply wp_bind_get
    cases m.freelist with
    | nil => exact wp_pure rfl
    | cons r rest =>
      apply wp_bind_modify
      exact wp_pure rfl
  obtain ⟨c, m', hrun, heq⟩ := hw
  rw [hrun]
  cases hf : m.freelist with
  | nil =>
    rw [hf] at heq
    exact congrArg Except.ok heq
  | cons r rest =>
    rw [hf] at heq
    exact congrArg Except.ok heq

open CowShare

/-- Two processes whose entries share page `q`. The first call takes the page at the front of
the free list and the second, if there is one, the next. -/
structure Racers (L : Layout) (m₀ : PhysMem) (q : Nat) (t₁ t₂ : Table) (va₁ va₂ : Nat)
    (x y : CowShare) (rest : List Nat) : Prop where
  apart : Apart L m₀ q x y
  left : Shares t₁ va₁ x.p
  right : Shares t₂ va₂ y.p
  pte₁ : t₁.leaf (va₁ / PGSIZE) = x.pte
  pte₂ : t₂.leaf (va₂ / PGSIZE) = y.pte
  rep₁ : t₁.Rep m₀.page
  rep₂ : ∀ page : Nat → Buffer, (∀ a, a ≠ x.mem → a ≠ x.p.page → page a = m₀.page a) → t₂.Rep page
  list : m₀.freelist = x.mem :: rest
  tail : rest = [] ∨ ∃ l, rest = y.mem :: l

def RaceInv (m₀ : PhysMem) (q : Nat) (x y : CowShare) (rest : List Nat) (c : CowPoint × CowPoint)
    (m : PhysMem) : Prop :=
  ∃ i j, 1 ≤ i ∧ Together m₀ q i j ∧ c.1 = x.point i ∧ m = racing m₀ q x y i j ∧
    (rest ≠ [] ∧ c.2 = y.point j ∨ rest = [] ∧ j = 0 ∧ (c.2 = .start ∨ c.2 = .done (-1)))

variable {x y : CowShare} {rest : List Nat} {a b : CowPoint}

theorem CowShare.Together.zero {i : Nat} (h : Together m₀ q i 0) : Together m₀ q i 1 :=
  ⟨h.hi, by decide, fun he => by have := (h.left he).1; omega, fun he => absurd he (by decide)⟩

theorem RaceInv.final {r₁ r₂ s₁ s₂ : Int} (h : RaceInv m₀ q x y rest (.done r₁, .done r₂) m)
    (h' : RaceInv m₀ q x y rest (.done s₁, .done s₂) m') : r₁ = s₁ ∧ r₂ = s₂ ∧ m = m' := by
  have hone : ∀ {r₁ r₂ : Int} {m : PhysMem}, RaceInv m₀ q x y rest (.done r₁, .done r₂) m →
      r₁ = 0 ∧ (rest ≠ [] ∧ r₂ = 0 ∧ m = racing m₀ q x y 6 6 ∨
        rest = [] ∧ r₂ = -1 ∧ m = racing m₀ q x y 6 0) := by
    rintro r₁ r₂ m ⟨i, j, hi, ht, ha, rfl, hb⟩
    obtain ⟨rfl, rfl⟩ := point_done ha.symm ht.hi
    refine ⟨rfl, hb.imp ?_ ?_⟩
    · rintro ⟨hne, hb⟩
      obtain ⟨rfl, rfl⟩ := point_done hb.symm ht.hj
      exact ⟨hne, rfl, rfl⟩
    · rintro ⟨hnil, rfl, hb | hb⟩
      · contradiction
      · exact ⟨hnil, CowPoint.done.inj hb, rfl⟩
  obtain ⟨rfl, hm⟩ := hone h
  obtain ⟨rfl, hm'⟩ := hone h'
  rcases hm with ⟨hne, rfl, rfl⟩ | ⟨hnil, rfl, rfl⟩
  · rcases hm' with ⟨-, rfl, rfl⟩ | ⟨hnil, -⟩
    · exact ⟨rfl, rfl, rfl⟩
    · exact absurd hnil hne
  · rcases hm' with ⟨hne, -⟩ | ⟨-, rfl, rfl⟩
    · exact absurd hnil hne
    · exact ⟨rfl, rfl, rfl⟩

namespace Racers

theorem step_left (hr : Racers L m₀ q t₁ t₂ va₁ va₂ x y rest)
    (h : RaceInv m₀ q x y rest (a, b) m) :
    Wp (cowSection L t₁.root va₁ a) (fun a' m' => RaceInv m₀ q x y rest (a', b) m') m := by
  obtain ⟨i, j, hi, ht, rfl, rfl, hb⟩ := h
  refine (CowShare.step_left hr.apart ht hi).mono ?_
  rintro a' m' ⟨i', hi', ht', rfl, rfl⟩
  exact ⟨i', j, hi', ht', rfl, rfl, hb⟩

theorem step_right (hr : Racers L m₀ q t₁ t₂ va₁ va₂ x y rest)
    (h : RaceInv m₀ q x y rest (a, b) m) :
    Wp (cowSection L t₂.root va₂ b) (fun b' m' => RaceInv m₀ q x y rest (a, b') m') m := by
  obtain ⟨i, j, hi, ht, rfl, rfl, hb⟩ := h
  have hone : (if 1 ≤ i then 1 else 0) = 1 := if_pos hi
  have hrep : t₂.Rep (racing m₀ q x y i 0).page := by
    apply hr.rep₂
    intro c h1 h2
    simp [racing, pages, h1, h2, freed]
  have hlist : (racing m₀ q x y i 0).freelist = rest := by
    simp [racing, freed, hr.list, hone]
  by_cases hj : j = 0
  · subst hj
    rcases hb with ⟨hne, rfl⟩ | ⟨rfl, -, rfl | rfl⟩
    · obtain ⟨l, rfl⟩ := hr.tail.resolve_left hne
      refine ⟨_, _, (hr.right.start hrep).trans (by rw [hlist]), i, 1, hi, ht.zero, rfl, ?_,
        .inl ⟨hne, by rw [hr.pte₂]; rfl⟩⟩
      refine ext_fields ?_ ?_ ?_
      · funext c
        simp [racing, pages, freed]
      · funext c
        simp [racing, counts]
      · simp [racing, freed, hr.list, hone]
    · exact ⟨_, _, (hr.right.start hrep).trans (by rw [hlist]), i, 0, hi, ht, rfl, rfl,
        .inr ⟨rfl, rfl, .inr rfl⟩⟩
    · exact wp_pure ⟨i, 0, hi, ht, rfl, rfl, .inr ⟨rfl, rfl, .inr rfl⟩⟩
  · obtain ⟨hne, rfl⟩ := hb.resolve_right fun hc => hj hc.2.1
    rw [racing_comm hr.apart]
    refine (CowShare.step_left hr.apart.symm ht.symm (by omega)).mono ?_
    rintro b' m' ⟨j', hj', ht', rfl, rfl⟩
    exact ⟨i, j', hi, ht'.symm, rfl, racing_comm hr.apart.symm, .inl ⟨hne, rfl⟩⟩

theorem run (hr : Racers L m₀ q t₁ t₂ va₁ va₂ x y rest) (l : List Bool) :
    ∀ {a b m}, RaceInv m₀ q x y rest (a, b) m →
      Wp (cowRace L t₁.root va₁ t₂.root va₂ l a b) (RaceInv m₀ q x y rest) m := by
  induction l with
  | nil => exact fun h => wp_pure h
  | cons s l ih =>
    intro a b m h
    cases s with
    | true =>
      apply wp_bind
      exact (hr.step_left h).mono fun a' m' h' => ih h'
    | false =>
      apply wp_bind
      exact (hr.step_right h).mono fun b' m' h' => ih h'

theorem first (hr : Racers L m₀ q t₁ t₂ va₁ va₂ x y rest) :
    Wp (cowSection L t₁.root va₁ .start) (fun a m => RaceInv m₀ q x y rest (a, .start) m) m₀ := by
  refine ⟨_, _, (hr.left.start hr.rep₁).trans (by rw [hr.list]), 1, 0, by decide,
    ⟨by decide, by decide, fun he => absurd he (by decide), fun he => absurd he (by decide)⟩,
    by rw [hr.pte₁]; rfl, ?_, ?_⟩
  · refine ext_fields ?_ ?_ ?_
    · funext c
      simp [racing, pages, freed]
    · funext c
      simp [racing, counts]
    · simp [racing, freed, hr.list]
  · rcases hr.tail with h | ⟨l, h⟩
    · exact .inr ⟨h, rfl, .inl rfl⟩
    · exact .inl ⟨by rw [h]; exact List.cons_ne_nil _ _, rfl⟩

end Racers

theorem cowRace_left (r₁ v₁ r₂ v₂ n : Nat) (l : List Bool) (b : CowPoint) : ∀ a,
    cowRace L r₁ v₁ r₂ v₂ (List.replicate n true ++ l) a b = (do
      let a ← cowSections L r₁ v₁ n a
      cowRace L r₁ v₁ r₂ v₂ l a b) := by
  induction n with
  | zero =>
    intro a
    rfl
  | succ n ih =>
    intro a
    simp only [List.replicate_succ, List.cons_append, cowRace, ih, cowSections_succ, bind_assoc]

theorem cowRace_right (r₁ v₁ r₂ v₂ n : Nat) (a : CowPoint) : ∀ b,
    cowRace L r₁ v₁ r₂ v₂ (List.replicate n false) a b = (do
      let b ← cowSections L r₂ v₂ n b
      pure (a, b)) := by
  induction n with
  | zero =>
    intro b
    rfl
  | succ n ih =>
    intro b
    simp only [List.replicate_succ, cowRace, ih, cowSections_succ, bind_assoc]

theorem cowRace_serial (r₁ v₁ r₂ v₂ : Nat) :
    cowRace L r₁ v₁ r₂ v₂ (List.replicate 6 true ++ List.replicate 6 false) .start .start = (do
      let r ← cowPageFaultHandler L r₁ v₁
      let s ← cowPageFaultHandler L r₂ v₂
      pure (.done r, .done s)) := by
  rw [cowRace_left, cowSections_eq]
  simp only [cowRace_right, cowSections_eq, bind_map_left]

def Serial (L : Layout) (pagetable₁ va₁ pagetable₂ va₂ : Nat) (m : PhysMem) (r₁ r₂ : Int)
    (m' : PhysMem) : Prop :=
  Wp (cowPageFaultHandler L pagetable₁ va₁) (fun r m₁ => r = r₁ ∧
    Wp (cowPageFaultHandler L pagetable₂ va₂) (fun s m₂ => s = r₂ ∧ m₂ = m') m₁) m

theorem Serial.of_race {r₁ v₁ r₂ v₂ : Nat}
    (h : cowRace L r₁ v₁ r₂ v₂ (List.replicate 6 true ++ List.replicate 6 false) .start .start m =
      .ok (c, m')) : ∃ r s, c = (.done r, .done s) ∧ Serial L r₁ v₁ r₂ v₂ m r s m' := by
  rw [cowRace_serial] at h
  obtain ⟨r, m₁, h1, h⟩ := ok_of_bind h
  obtain ⟨s, m₂, h2, h⟩ := ok_of_bind h
  obtain ⟨rfl, rfl⟩ := Prod.mk.inj (Except.ok.inj h)
  exact ⟨r, s, rfl, r, m₁, h1, rfl, s, m₂, h2, rfl, rfl⟩

theorem Racers.serial (hr : Racers L m₀ q t₁ t₂ va₁ va₂ x y rest) (l : List Bool) :
    Wp (cowRace L t₁.root va₁ t₂.root va₂ (true :: l) .start .start) (fun c m' =>
      ∀ r₁ r₂, c = (.done r₁, .done r₂) →
        Serial L t₁.root va₁ t₂.root va₂ m₀ r₁ r₂ m') m₀ := by
  have hrun : ∀ l, Wp (cowRace L t₁.root va₁ t₂.root va₂ (true :: l) .start .start)
      (RaceInv m₀ q x y rest) m₀ := fun l => wp_bind (hr.first.mono (fun _ _ h => hr.run l h))
  obtain ⟨c', m'', hs, hinv'⟩ := hrun (List.replicate 5 true ++ List.replicate 6 false)
  obtain ⟨s₁, s₂, rfl, hser⟩ := Serial.of_race (c := c') hs
  refine (hrun l).mono fun c m' hinv r₁ r₂ hc => ?_
  rw [hc] at hinv
  obtain ⟨rfl, rfl, rfl⟩ := hinv.final hinv'
  exact hser

theorem cowRace_exhausted (h₁ : Shares t₁ va₁ p₁) (h₂ : Shares t₂ va₂ p₂) (hr₁ : t₁.Rep m.page)
    (hr₂ : t₂.Rep m.page) (hf : m.freelist = []) (l : List Bool) : ∀ {a b},
    (a = .start ∨ a = .done (-1)) → (b = .start ∨ b = .done (-1)) →
    Wp (cowRace L t₁.root va₁ t₂.root va₂ l a b) (fun c m' => m' = m ∧
      (c.1 = .start ∨ c.1 = .done (-1)) ∧ (c.2 = .start ∨ c.2 = .done (-1))) m := by
  have hstep : ∀ {t va p c}, Shares t va p → t.Rep m.page → (c = .start ∨ c = .done (-1)) →
      cowSection L t.root va c m = .ok (.done (-1), m) := by
    rintro t va p c hs hr (rfl | rfl)
    · rw [hs.start hr, hf]
    · rfl
  induction l with
  | nil => exact fun ha hb => wp_pure ⟨rfl, ha, hb⟩
  | cons s l ih =>
    intro a b ha hb
    cases s with
    | true => exact wp_bind ⟨_, _, hstep h₁ hr₁ ha, ih (.inr rfl) hb⟩
    | false => exact wp_bind ⟨_, _, hstep h₂ hr₂ hb, ih ha (.inr rfl)⟩

theorem cowRace_swap (r₁ v₁ r₂ v₂ : Nat) (l : List Bool) : ∀ a b,
    cowRace L r₁ v₁ r₂ v₂ l a b = Prod.swap <$> cowRace L r₂ v₂ r₁ v₁ (l.map not) b a := by
  induction l with
  | nil => exact fun a b => rfl
  | cons s l ih =>
    intro a b
    cases s with
    | true => simp only [cowRace, ih, List.map_cons, Bool.not_true, map_bind]
    | false => simp only [cowRace, ih, List.map_cons, Bool.not_false, map_bind]

def CowPoint.left : CowPoint → Nat
  | .start => 6
  | .taken .. => 5
  | .counted .. => 4
  | .mapped .. => 3
  | .copied _ => 2
  | .dropped _ => 1
  | .done _ => 0

theorem CowPoint.eq_done (h : a.left = 0) : ∃ r, a = .done r := by
  cases a with
  | done r => exact ⟨r, rfl⟩
  | _ => cases h

theorem cowSection_left (pagetable va : Nat) (a : CowPoint) (m : PhysMem) :
    WpUpTo (fun _ => True) (cowSection L pagetable va a) (fun a' _ => a'.left ≤ a.left - 1) m := by
  cases a with
  | start =>
    rw [cowSection]
    split
    · exact upTo_pure (Nat.zero_le _)
    · refine upTo_after fun o _ => ?_
      cases o with
      | none => exact upTo_pure (Nat.zero_le _)
      | some p =>
        refine upTo_after fun pte _ => ?_
        repeat' split
        all_goals first
          | exact upTo_pure (Nat.zero_le _)
          | refine upTo_after fun m _ => ?_
        split
        · exact upTo_pure (Nat.zero_le _)
        · exact upTo_after fun _ _ => upTo_pure (Nat.le_refl _)
  | taken p pte mem =>
    exact upTo_after fun _ _ => upTo_after (fun _ _ => upTo_pure (Nat.le_refl _))
  | counted p pte mem => exact upTo_after fun _ _ => upTo_pure (Nat.le_refl _)
  | mapped pte mem =>
    exact upTo_after fun _ _ => upTo_after (fun _ _ => upTo_pure (Nat.le_refl _))
  | copied pte =>
    simp only [cowSection]
    split
    · exact trivial
    · refine upTo_after fun res _ => ?_
      split
      · exact trivial
      · split
        · exact upTo_pure (Nat.zero_le _)
        · exact upTo_pure (Nat.le_refl _)
  | dropped pa =>
    exact upTo_after fun _ _ => upTo_after (fun _ _ => upTo_pure (Nat.le_refl _))
  | done r => exact upTo_pure (Nat.le_refl _)

theorem cowRace_left_le (r₁ v₁ r₂ v₂ : Nat) (l : List Bool) : ∀ a b m,
    WpUpTo (fun _ => True) (cowRace L r₁ v₁ r₂ v₂ l a b) (fun c _ =>
      c.1.left ≤ a.left - l.count true ∧ c.2.left ≤ b.left - l.count false) m := by
  induction l with
  | nil => exact fun a b m => upTo_pure ⟨Nat.le_refl _, Nat.le_refl _⟩
  | cons s l ih =>
    intro a b m
    cases s with
    | true =>
      refine upTo_bind ((cowSection_left r₁ v₁ a m).mono (fun a' m' ha => (ih a' b m').mono ?_))
      rintro c _ ⟨h1, h2⟩
      rw [List.count_cons_self, List.count_cons_of_ne (by decide)]
      omega
    | false =>
      refine upTo_bind ((cowSection_left r₂ v₂ b m).mono (fun b' m' hb => (ih a b' m').mono ?_))
      rintro c _ ⟨h1, h2⟩
      rw [List.count_cons_self, List.count_cons_of_ne (by decide)]
      omega

theorem cowRace_ends {r₁ v₁ r₂ v₂ : Nat} (h : cowRace L r₁ v₁ r₂ v₂ l .start .start m = .ok (c, m'))
    (h₁ : 6 ≤ l.count true) (h₂ : 6 ≤ l.count false) : ∃ r s, c = (.done r, .done s) := by
  have hle : c.1.left ≤ 6 - l.count true ∧ c.2.left ≤ 6 - l.count false :=
    (cowRace_left_le r₁ v₁ r₂ v₂ l .start .start m).ok h
  obtain ⟨r, hr⟩ := CowPoint.eq_done (a := c.1) (by omega)
  obtain ⟨s, hs⟩ := CowPoint.eq_done (a := c.2) (by omega)
  exact ⟨r, s, Prod.ext hr hs⟩

theorem cowSections_add (pagetable va n : Nat) : ∀ k c,
    cowSections L pagetable va (k + n) c =
      cowSections L pagetable va k c >>= cowSections L pagetable va n
  | 0, c => by rw [Nat.zero_add, cowSections, pure_bind]
  | k + 1, c => by
    rw [Nat.add_right_comm, cowSections_succ, cowSections_succ, bind_assoc]
    exact bind_congr fun c' => cowSections_add pagetable va n k c'

theorem cowSections_more (pagetable va n : Nat) :
    cowSections L pagetable va (6 + n) .start = CowPoint.done <$> cowPageFaultHandler L pagetable va := by
  rw [cowSections_add, cowSections_eq, bind_map_left, map_eq_pure_bind]
  exact bind_congr fun r => cowSections_done pagetable va r n

theorem cowSections_result {pagetable n : Nat} {r : Int}
    (h : cowSections L pagetable va n .start m = .ok (.done r, m')) :
    cowPageFaultHandler L pagetable va m = .ok (r, m') := by
  have hmore : (cowSections L pagetable va (n + 6) .start) m = .ok (.done r, m') := by
    rw [cowSections_add, bind_eq h, cowSections_done]
    rfl
  rw [Nat.add_comm, cowSections_more, map_eq_pure_bind] at hmore
  obtain ⟨s, m₁, hc, hmore⟩ := ok_of_bind hmore
  cases hmore
  exact hc

theorem cowRace_refused (r₁ r₂ v₂ : Nat) (l : List Bool) : ∀ a b, a = .start ∨ a = .done (-1) →
    cowRace L r₁ 0 r₂ v₂ l a b = (do
      let b ← cowSections L r₂ v₂ (l.count false) b
      pure (if true ∈ l then .done (-1) else a, b)) := by
  induction l with
  | nil => exact fun a b _ => rfl
  | cons s l ih =>
    intro a b ha
    cases s with
    | true =>
      have hsec : cowSection L r₁ 0 a = pure (.done (-1)) := by
        rcases ha with rfl | rfl
        · rfl
        · rfl
      rw [cowRace, hsec, pure_bind, ih _ b (.inr rfl), List.count_cons_of_ne (by decide),
        if_pos List.mem_cons_self, ite_self]
    | false =>
      rw [cowRace, List.count_cons_self, cowSections_succ, bind_assoc]
      refine bind_congr fun b' => ?_
      rw [ih a b' ha]
      simp only [List.mem_cons, Bool.true_eq_false, false_or]

theorem cowRace_swapped {r₁ v₁ r₂ v₂ : Nat}
    (h : cowRace L r₂ v₂ r₁ v₁ (l.map not) b a m = .ok (c, m')) :
    cowRace L r₁ v₁ r₂ v₂ l a b m = .ok (c.swap, m') := by
  rw [cowRace_swap, map_eq_pure_bind, bind_eq h]
  rfl

end Xv6
