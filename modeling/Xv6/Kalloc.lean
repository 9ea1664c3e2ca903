import Mathlib.Data.List.Nodup
import Xv6.Basic
import Xv6.Pte
import Xv6.StateProg

/-! Physical memory and the page allocator of `kernel/kalloc.c`. A page is a buffer at
its base address; the free list is a list of page addresses, and the links it keeps in
the free pages are not part of their contents. -/

namespace Xv6

open Function StateProg

/-- What the linker fixes: the first address after the kernel, and the page of the
trampoline code inside it. -/
structure Layout where
  kend : Nat
  trampoline : Nat
  kernbase_le : KERNBASE ≤ kend
  trampoline_aligned : trampoline % PGSIZE = 0
  trampoline_lt : trampoline < kend
  kend_le : kend ≤ PHYSTOP

/-- A kernel that leaves 24 pages free. -/
def smallKernel : Layout where
  kend := PHYSTOP - 24 * PGSIZE
  trampoline := KERNBASE
  kernbase_le := by decide
  trampoline_aligned := by decide
  trampoline_lt := by decide
  kend_le := by decide

def tinyKernel : Layout where
  kend := PHYSTOP - 12 * PGSIZE
  trampoline := KERNBASE
  kernbase_le := by decide
  trampoline_aligned := by decide
  trampoline_lt := by decide
  kend_le := by decide

structure PhysMem where
  page : Nat → Buffer
  counter : Nat → UInt8
  freelist : List Nat

inductive Panic where
  | kfree
  | kfreeCounter
  | walk
  | mappagesSize
  | remap
  | unmapAlign
  | unmapWalk
  | unmapNotMapped
  | unmapNotLeaf
  | freewalkLeaf
  | freewalkDepth
  | uvmfirst
  | uvmcopyPte
  | uvmcopyPresent
  | uvmclear
  | loadseg
  | initExiting
  | kerneltrap
  deriving DecidableEq, Repr

abbrev Kernel := Prog PhysMem Panic

variable (L : Layout)

def setPage (pa : Nat) (b : Buffer) : Kernel Unit :=
  modify fun m => { m with page := update m.page pa b }

def memset (pa : Nat) (c : UInt8) : Kernel Unit := setPage pa fun _ => c

def increaseCount (pa : Nat) : Kernel Unit :=
  modify (fun m => { m with
    counter := update m.counter (pa2cowIndex pa) (m.counter (pa2cowIndex pa) + 1) })

def decreaseCount (pa : Nat) : Kernel Int := do
  modify (fun m => { m with
    counter := update m.counter (pa2cowIndex pa) (m.counter (pa2cowIndex pa) - 1) })
  let m ← get
  pure (m.counter (pa2cowIndex pa)).toNat

def kfree (pa : Nat) : Kernel Unit := do
  if pa % PGSIZE ≠ 0 ∨ pa < L.kend ∨ PHYSTOP ≤ pa then throw .kfree
  else
    let res ← decreaseCount pa
    if res < 0 then throw .kfreeCounter
    else if res > 0 then pure ()
    else
      memset pa 1
      modify fun m => { m with freelist := pa :: m.freelist }

def kalloc : Kernel (Option Nat) := do
  let m ← get
  match m.freelist with
  | [] => pure none
  | r :: rest =>
    modify fun m => { m with freelist := rest }
    memset r 5
    increaseCount r
    pure (some r)

def npages : Nat := (PHYSTOP - pgRoundUp L.kend) / PGSIZE

def freerange : Kernel Unit := do
  modify fun m => { m with counter := fun _ => 1 }
  let _ ← loop (npages L) (fun i => do
    kfree L (pgRoundUp L.kend + i * PGSIZE)
    pure (none : Option Unit))

def kinit : Kernel Unit := freerange L

def Layout.InRange (pa : Nat) : Prop := pa % PGSIZE = 0 ∧ L.kend ≤ pa ∧ pa < PHYSTOP

instance (pa : Nat) : Decidable (L.InRange pa) := inferInstanceAs (Decidable (_ ∧ _ ∧ _))

structure AllocInv (m : PhysMem) (refs : Nat → Nat) : Prop where
  count : ∀ pa, L.InRange pa → (m.counter (pa2cowIndex pa)).toNat = refs pa
  nodup : m.freelist.Nodup
  free : ∀ pa, pa ∈ m.freelist ↔ L.InRange pa ∧ refs pa = 0
  outside : ∀ pa, ¬ L.InRange pa → refs pa = 0

variable {L}

theorem Layout.InRange.pageAddr {pa : Nat} (h : L.InRange pa) : PageAddr pa := by
  refine ⟨h.1, ?_⟩
  have hlt := h.2.2
  simp only [PHYSTOP, KERNBASE] at hlt
  omega

theorem Layout.InRange.cowIndex_inj {pa pb : Nat} (ha : L.InRange pa) (hb : L.InRange pb)
    (h : pa2cowIndex pa = pa2cowIndex pb) : pa = pb := by
  obtain ⟨ha1, ha2, _⟩ := ha
  obtain ⟨hb1, hb2, _⟩ := hb
  have hbase := L.kernbase_le
  simp only [pa2cowIndex, PGSIZE, KERNBASE] at *
  omega

namespace AllocInv

variable {m : PhysMem} {refs : Nat → Nat} {pa : Nat}

theorem inRange (h : AllocInv L m refs) (hpos : 0 < refs pa) : L.InRange pa := by
  by_contra hout
  have hz := h.outside pa hout
  omega

theorem congr {m' : PhysMem} (h : AllocInv L m refs) (hc : m'.counter = m.counter)
    (hf : m'.freelist = m.freelist) : AllocInv L m' refs where
  count := by rw [hc]; exact h.count
  nodup := by rw [hf]; exact h.nodup
  free := by rw [hf]; exact h.free
  outside := h.outside

theorem count_update (h : AllocInv L m refs) (hr : L.InRange pa) {c : UInt8} {n : Nat}
    (hc : c.toNat = n) (pb : Nat) (hb : L.InRange pb) :
    (update m.counter (pa2cowIndex pa) c (pa2cowIndex pb)).toNat =
      update refs pa n pb := by
  by_cases he : pb = pa
  · subst pb; simp [hc]
  · have hi : pa2cowIndex pb ≠ pa2cowIndex pa := fun hh => he (hb.cowIndex_inj hr hh)
    rw [update_of_ne hi, update_of_ne he]
    exact h.count pb hb

theorem outside_update (h : AllocInv L m refs) (hr : L.InRange pa) (n : Nat) (pb : Nat)
    (hb : ¬ L.InRange pb) : update refs pa n pb = 0 := by
  have he : pb ≠ pa := fun hh => hb (hh ▸ hr)
  rw [update_of_ne he]
  exact h.outside pb hb

theorem increase (h : AllocInv L m refs) (hpos : 0 < refs pa) (hlt : refs pa < 255) :
    Wp (increaseCount pa) (fun _ m' => AllocInv L m' (update refs pa (refs pa + 1)) ∧
      m'.page = m.page) m := by
  have hr := h.inRange hpos
  have hc : (m.counter (pa2cowIndex pa) + 1).toNat = refs pa + 1 := by
    rw [UInt8.toNat_add, h.count pa hr]
    exact Nat.mod_eq_of_lt (show refs pa + 1 < 256 by omega)
  apply wp_modify
  refine ⟨⟨?_, h.nodup, ?_, ?_⟩, rfl⟩
  · intro pb hb
    exact h.count_update hr hc pb hb
  · intro pb
    have hf := h.free pb
    by_cases he : pb = pa
    · subst pb
      rw [update_self, hf]
      omega
    · rw [update_of_ne he]
      exact hf
  · intro pb hb
    exact h.outside_update hr _ pb hb

theorem kalloc (h : AllocInv L m refs) :
    Wp kalloc (fun r m' =>
      match r with
      | none => m.freelist = [] ∧ m' = m
      | some pa => L.InRange pa ∧ refs pa = 0 ∧ AllocInv L m' (update refs pa 1) ∧
          m.freelist = pa :: m'.freelist ∧ ∀ q, q ≠ pa → m'.page q = m.page q) m := by
  unfold Xv6.kalloc
  apply wp_bind_get
  cases hf : m.freelist with
  | nil => exact wp_pure ⟨rfl, rfl⟩
  | cons r rest =>
    have hmem := (h.free r).mp (by rw [hf]; simp)
    have hnd := h.nodup
    rw [hf] at hnd
    have hc : (m.counter (pa2cowIndex r) + 1).toNat = 1 := by
      rw [UInt8.toNat_add, h.count r hmem.1, hmem.2]
      rfl
    refine ⟨some r, ⟨update m.page r (fun _ => 5),
      update m.counter (pa2cowIndex r) (m.counter (pa2cowIndex r) + 1), rest⟩, rfl, ?_⟩
    refine ⟨hmem.1, hmem.2, ⟨?_, (List.nodup_cons.mp hnd).2, ?_, ?_⟩, rfl, ?_⟩
    · intro pb hb
      exact h.count_update hmem.1 hc pb hb
    · intro pb
      have hpb := h.free pb
      rw [hf] at hpb
      change pb ∈ rest ↔ _
      by_cases he : pb = r
      · subst pb
        rw [update_self]
        simp [(List.nodup_cons.mp hnd).1]
      · rw [update_of_ne he, ← hpb]
        simp [he]
    · intro pb hb
      exact h.outside_update hmem.1 _ pb hb
    · intro q hq
      exact update_of_ne hq _ _

theorem kfree (h : AllocInv L m refs) (hpos : 0 < refs pa) :
    Wp (kfree L pa) (fun _ m' => AllocInv L m' (update refs pa (refs pa - 1)) ∧
      ∀ q, q ≠ pa ∨ 1 < refs pa → m'.page q = m.page q) m := by
  have hr := h.inRange hpos
  have hle := (m.counter (pa2cowIndex pa)).toNat_lt
  rw [h.count pa hr] at hle
  have hc : (m.counter (pa2cowIndex pa) - 1).toNat = refs pa - 1 := by
    rw [UInt8.toNat_sub, h.count pa hr]
    change (2 ^ 8 - 1 + refs pa) % 2 ^ 8 = refs pa - 1
    omega
  have hguard : ¬ (pa % PGSIZE ≠ 0 ∨ pa < L.kend ∨ PHYSTOP ≤ pa) := by
    obtain ⟨h1, h2, h3⟩ := hr
    omega
  unfold Xv6.kfree
  rw [if_neg hguard]
  apply wp_bind
  refine ⟨_, _, rfl, ?_⟩
  beta_reduce
  have hres : ((update m.counter (pa2cowIndex pa) (m.counter (pa2cowIndex pa) - 1)
      (pa2cowIndex pa)).toNat : Int) = (refs pa - 1 : Nat) := by
    rw [update_self, hc]
  have hcount : ∀ pb, L.InRange pb → (update m.counter (pa2cowIndex pa)
      (m.counter (pa2cowIndex pa) - 1) (pa2cowIndex pb)).toNat =
        update refs pa (refs pa - 1) pb := fun pb hb => h.count_update hr hc pb hb
  have hout : ∀ pb, ¬ L.InRange pb → update refs pa (refs pa - 1) pb = 0 :=
    fun pb hb => h.outside_update hr _ pb hb
  by_cases hone : refs pa = 1
  · have hnot : pa ∉ m.freelist := by
      intro hm
      have hz := ((h.free pa).mp hm).2
      omega
    rw [if_neg (by rw [hres]; omega), if_neg (by rw [hres]; omega)]
    refine ⟨⟨⟩, _, rfl, ⟨hcount, List.nodup_cons.mpr ⟨hnot, h.nodup⟩, ?_, hout⟩, ?_⟩
    · intro pb
      have hpb := h.free pb
      change pb ∈ pa :: m.freelist ↔ _
      by_cases he : pb = pa
      · subst pb
        rw [update_self]
        simp [hr, hone]
      · rw [update_of_ne he, ← hpb]
        simp [he]
    · intro q hq
      have hqa : q ≠ pa := by
        rcases hq with hq | hq
        · exact hq
        · omega
      exact update_of_ne hqa _ _
  · rw [if_neg (by rw [hres]; omega), if_pos (by rw [hres]; omega)]
    refine wp_pure ⟨⟨hcount, h.nodup, ?_, hout⟩, fun q _ => rfl⟩
    intro pb
    have hpb := h.free pb
    by_cases he : pb = pa
    · subst pb
      rw [update_self, hpb]
      omega
    · rw [update_of_ne he]
      exact hpb

end AllocInv

theorem Layout.inRange_iff {pa : Nat} : L.InRange pa ↔
    ∃ i < npages L, pa = pgRoundUp L.kend + i * PGSIZE := by
  have hle := L.kend_le
  have hbase := L.kernbase_le
  simp only [Layout.InRange, npages, pgRoundUp, PGSIZE, PHYSTOP, KERNBASE] at *
  constructor
  · rintro ⟨h1, h2, h3⟩
    exact ⟨(pa - (L.kend + 4096 - 1) / 4096 * 4096) / 4096, by omega, by omega⟩
  · rintro ⟨i, hi, rfl⟩
    omega

theorem kinit_free {m : PhysMem} (hm : m.freelist = []) :
    Wp (kinit L) (fun _ m' => AllocInv L m' (fun _ => 0)) m := by
  let refs : Nat → Nat → Nat := fun i pa =>
    if L.InRange pa ∧ pgRoundUp L.kend + i * PGSIZE ≤ pa then 1 else 0
  have hstart : AllocInv L { m with counter := fun _ => 1 } (refs 0) := by
    have hone : ∀ pa, L.InRange pa → refs 0 pa = 1 := by
      intro pa hpa
      obtain ⟨i, _, rfl⟩ := Layout.inRange_iff.mp hpa
      simp [refs, hpa]
    refine ⟨fun pa hpa => (hone pa hpa).symm, by rw [hm]; exact List.nodup_nil, ?_, ?_⟩
    · intro pa
      rw [hm]
      constructor
      · intro hmem; cases hmem
      · rintro ⟨hpa, hz⟩
        rw [hone pa hpa] at hz
        cases hz
    · intro pa hpa
      simp [refs, hpa]
  unfold kinit freerange
  apply wp_bind_modify
  apply wp_bind
  apply wp_loop (fun i m' => AllocInv L m' (refs i)) hstart
  · intro i m' hi hI
    have hpa : L.InRange (pgRoundUp L.kend + i * PGSIZE) := Layout.inRange_iff.mpr ⟨i, hi, rfl⟩
    have hone : refs i (pgRoundUp L.kend + i * PGSIZE) = 1 := by simp [refs, hpa]
    have hnext : update (refs i) (pgRoundUp L.kend + i * PGSIZE)
        (refs i (pgRoundUp L.kend + i * PGSIZE) - 1) = refs (i + 1) := by
      funext pb
      by_cases he : pb = pgRoundUp L.kend + i * PGSIZE
      · subst pb
        simp [hone, refs]
      · rw [update_of_ne he]
        by_cases hpb : L.InRange pb
        · obtain ⟨j, _, rfl⟩ := Layout.inRange_iff.mp hpb
          have hij : i ≠ j := fun hh => he (hh ▸ rfl)
          have hiff : (pgRoundUp L.kend + i * PGSIZE ≤ pgRoundUp L.kend + j * PGSIZE) ↔
              (pgRoundUp L.kend + (i + 1) * PGSIZE ≤ pgRoundUp L.kend + j * PGSIZE) := by
            simp only [PGSIZE]
            omega
          simp only [refs, hiff]
        · simp [refs, hpb]
    refine (hI.kfree (by omega)).bind fun _ m'' hm'' => wp_pure ?_
    rw [← hnext]
    exact hm''.1
  · intro m' hI
    apply wp_pure
    have hzero : refs (npages L) = fun _ => 0 := by
      funext pa
      by_cases hpa : L.InRange pa
      · obtain ⟨j, hj, rfl⟩ := Layout.inRange_iff.mp hpa
        have hlt : ¬ (pgRoundUp L.kend + npages L * PGSIZE ≤ pgRoundUp L.kend + j * PGSIZE) := by
          simp only [PGSIZE]
          omega
        simp only [refs, hlt, and_false, if_false]
      · simp [refs, hpa]
    rw [← hzero]
    exact hI

theorem AllocInv.length_freelist {m : PhysMem} (h : AllocInv L m (fun _ => 0)) :
    m.freelist.length = npages L := by
  have hperm : m.freelist.Perm ((List.range (npages L)).map (fun i => pgRoundUp L.kend + i * PGSIZE)) := by
    apply (List.perm_ext_iff_of_nodup h.nodup ?_).mpr
    · intro pa
      rw [h.free, Layout.inRange_iff]
      simp [eq_comm]
    · apply List.Nodup.map _ List.nodup_range
      intro a b hab
      simp only [PGSIZE] at hab
      omega
  rw [hperm.length_eq, List.length_map, List.length_range]

/-- Memory after `kinit`, if it was zero before. -/
def booted (L : Layout) : PhysMem :=
  match kinit L ⟨fun _ _ => 0, fun _ => 0, []⟩ with
  | .ok (_, m) => m
  | .error _ => ⟨fun _ _ => 0, fun _ => 0, []⟩

theorem kinit_booted : kinit L ⟨fun _ _ => 0, fun _ => 0, []⟩ = .ok ((), booted L) := by
  obtain ⟨⟨⟩, m, hm, -⟩ := kinit_free (L := L) (m := ⟨fun _ _ => 0, fun _ => 0, []⟩) rfl
  rw [booted, hm]

end Xv6
