import Mathlib.Data.List.Perm.Subperm
import Xv6.Exec
import Xv6.TableLife
import Xv6.UserAccess

/-! The tables of processes: which pages they map, and how `exec` builds and discards them. -/

namespace Xv6

open Function StateProg

variable {L : Layout} {m m' : PhysMem} {env : Env} {t t' : Table} {v n : Nat}

abbrev trampolinePage : Nat := TRAMPOLINE / PGSIZE

structure Table.Covers (t : Table) (n : Nat) : Prop where
  valid : ∀ v, (t.leaf v).has PTE_V = true ↔ v < n ∨ v = userTop ∨ v = trampolinePage
  le : n ≤ userTop

theorem Table.Covers.user (h : t.Covers n) (hv : v < userTop) :
    (t.leaf v).has PTE_V = true ↔ v < n := by
  rw [h.valid v]
  have h1 : v ≠ trampolinePage := by
    simp only [userTop, TRAPFRAME, TRAMPOLINE, trampolinePage, MAXVA, PGSIZE] at hv ⊢
    omega
  omega

theorem Table.Covers.not_valid (h : t.Covers n) (h1 : n ≤ v) (h2 : v < userTop) :
    (t.leaf v).has PTE_V = false := by
  rw [Bool.eq_false_iff]
  intro hh
  have hlt := (h.user h2).mp hh
  omega

theorem Table.Covers.congr (h : t.Covers n) (hl : ∀ v, (t'.leaf v).has PTE_V = (t.leaf v).has PTE_V) :
    t'.Covers n :=
  ⟨fun v => by rw [hl v]; exact h.valid v, h.le⟩

theorem length_le_of_inRange {l : List Nat} (hn : l.Nodup) (hr : ∀ x ∈ l, L.InRange x) :
    l.length ≤ 32768 := by
  have hsub : l ⊆ (List.range (npages L)).map (fun i => pgRoundUp L.kend + i * PGSIZE) := by
    intro x hx
    obtain ⟨i, hi, rfl⟩ := Layout.inRange_iff.mp (hr x hx)
    exact List.mem_map.mpr ⟨i, List.mem_range.mpr hi, rfl⟩
  have hle := (hn.subperm hsub).length_le
  rw [List.length_map, List.length_range] at hle
  have hbase := L.kernbase_le
  simp only [npages, pgRoundUp, PGSIZE, PHYSTOP, KERNBASE] at hle hbase
  omega

theorem AllocInv.length_le {refs : Nat → Nat} (h : AllocInv L m refs) : m.freelist.length ≤ 32768 :=
  length_le_of_inRange h.nodup fun x hx => ((h.free x).mp hx).1

theorem Table.Covers.small (hc : t.Covers n) (h : TableInv L m env t) : n ≤ 32768 := by
  have hmaps : ∀ i ∈ List.range n, t.MapsAt i (pte2pa (t.leaf i)) := by
    intro i hi
    have hlt := List.mem_range.mp hi
    have hle := hc.le
    exact ⟨by omega, (hc.user (by omega)).mpr hlt, rfl⟩
  have hlen := length_le_of_inRange (L := L) (l := (List.range n).map (fun i => pte2pa (t.leaf i))) ?_ ?_
  · simpa using hlen
  · apply List.Nodup.map_on _ List.nodup_range
    intro a ha b hb hab
    exact h.fits.inj a b _ (hab ▸ hmaps a ha) (hmaps b hb)
  · intro x hx
    obtain ⟨i, hi, rfl⟩ := List.mem_map.mp hx
    exact h.inRange (.inr ⟨i, hmaps i hi⟩)

theorem Table.Covers.room (hc : t.Covers n) (h : TableInv L m env t) :
    n + m.freelist.length ≤ userTop := by
  have h1 := hc.small h
  have h2 := h.alloc.length_le
  simp only [userTop, TRAPFRAME, TRAMPOLINE, MAXVA, PGSIZE]
  omega

theorem Table.Covers.blank_top {root : Nat} {a b : Pte} (ha : a.has PTE_V = true) (hb : b.has PTE_V = true)
    (hl : t.leaf = update (update (Table.blank root).leaf trampolinePage a) userTop b) :
    t.Covers 0 := by
  refine ⟨fun v => ?_, by omega⟩
  have hne : trampolinePage ≠ userTop := by decide
  rw [hl]
  by_cases h1 : v = userTop
  · subst v
    simp only [update_self, hb, true_or, or_true]
  · rw [update_of_ne h1]
    by_cases h2 : v = trampolinePage
    · subst v
      simp only [update_self, ha, or_true]
    · rw [update_of_ne h2]
      have h0 : ((Table.blank root).leaf v).has PTE_V = false := show (0 : Pte).has PTE_V = false by decide
      simp only [h0, h1, h2, or_self, Nat.not_lt_zero, Bool.false_eq_true]

theorem Table.Covers.view_empty (h : t.Covers 0) (hf : t.Fits env) (page : Nat → Buffer) :
    t.view page = UserMem.empty := by
  funext v
  by_cases hv : v < userTop
  · rw [Table.view, h.not_valid (Nat.zero_le v) hv]
    rfl
  · exact hf.view_top (by omega) page

theorem procFreepagetable_spec {sz : Nat} (h : TableInv L m env t) (hc : t.Covers (pageCount sz)) :
    Wp (procFreepagetable L t.root sz) (fun _ m' => AllocInv L m' env.count ∧
      Set.EqOn m'.page m.page {x | 0 < env.count x}) m := by
  unfold procFreepagetable
  apply wp_bind
  have hne : userTop ≠ trampolinePage := by decide
  refine (h.unmap_top (v := trampolinePage) (by decide) ((hc.valid _).mpr (.inr (.inr rfl)))).mono
    fun _ m₁ hr₁ => ?_
  obtain ⟨hinv₁, heq₁⟩ := hr₁
  apply wp_bind
  have hv₁ : ((t.setLeaf trampolinePage 0).leaf userTop).has PTE_V = true := by
    rw [Table.leaf_setLeaf_ne hne]
    exact (hc.valid _).mpr (.inr (.inl rfl))
  refine (hinv₁.unmap_top (v := userTop) (by decide) hv₁).mono fun _ m₂ hr₂ => ?_
  obtain ⟨hinv₂, heq₂⟩ := hr₂
  have hv₂ : ∀ v, (((t.setLeaf trampolinePage 0).setLeaf userTop 0).leaf v).has PTE_V = true ↔
      v < pageCount sz := by
    intro v
    have hle := hc.le
    by_cases h1 : v = userTop
    · subst v
      rw [Table.leaf_setLeaf_self]
      have h0 : (0 : Pte).has PTE_V = false := by decide
      rw [h0]
      constructor
      · intro hh
        cases hh
      · intro hh
        omega
    · rw [Table.leaf_setLeaf_ne h1]
      by_cases h2 : v = trampolinePage
      · subst v
        rw [Table.leaf_setLeaf_self]
        have h0 : (0 : Pte).has PTE_V = false := by decide
        rw [h0]
        constructor
        · intro hh
          cases hh
        · intro hh
          have hlt : trampolinePage < userTop := by omega
          exact absurd hlt (by decide)
      · rw [Table.leaf_setLeaf_ne h2, hc.valid v]
        simp only [h1, h2, or_false]
  refine (hinv₂.uvmfree hv₂ hc.le).mono fun _ m₃ hr₃ => ⟨hr₃.1, fun x hx => ?_⟩
  rw [hr₃.2 hx, heq₂ (.inl hx), heq₁ (.inl hx)]

theorem TableInv.uvmfree_blank (h : TableInv L m env t) (hz : ∀ v, t.leaf v = 0) :
    Wp (Xv6.uvmfree L t.root 0) (fun _ m' => AllocInv L m' env.count ∧
      Set.EqOn m'.page m.page {x | 0 < env.count x}) m := by
  refine h.uvmfree (fun v => ?_) (Nat.zero_le _)
  have h0 : (0 : Pte).has PTE_V = false := by decide
  rw [hz v, h0]
  constructor
  · intro hh
    cases hh
  · intro hh
    exact absurd hh (Nat.not_lt_zero v)

theorem procPagetable_spec (h : AllocInv L m env.count) (trapframe : Nat) :
    Wp (procPagetable L trapframe) (fun r m' => Set.EqOn m'.page m.page {x | 0 < env.count x} ∧
      (r = none ∧ AllocInv L m' env.count ∧ m.freelist.length ≤ 5 ∨
       ∃ t, r = some t.root ∧ TableInv L m' env t ∧ t.Covers 0 ∧
        m.freelist.length ≤ m'.freelist.length + 5)) m := by
  unfold procPagetable
  refine (uvmcreate_spec h).bind fun r m₁ hr₁ => ?_
  cases r with
  | none =>
    obtain ⟨hf, rfl⟩ := hr₁
    exact wp_pure ⟨fun _ _ => rfl, .inl ⟨rfl, h, by rw [hf]; decide⟩⟩
  | some root =>
    obtain ⟨hinv₁, hf, heq₁⟩ := hr₁
    have hcons : m.freelist.length = m₁.freelist.length + 1 := by rw [hf]; rfl
    have hzero : (0 : Pte).has PTE_V = false := by decide
    apply wp_bind
    have hmap := hinv₁.map_top (v := trampolinePage) (by decide) (by decide) hzero L.trampoline
      (show (PTE_R ||| PTE_X : Pte).has PTE_R = true by decide) (by decide) (by decide)
    refine hmap.mono fun r m₂ hr₂ => ?_
    obtain ⟨t₂, hinv₂, hroot₂, heq₂, hlen₂, ⟨rfl, hl₂, hempty⟩ | ⟨rfl, hl₂⟩⟩ := hr₂
    · rw [if_pos (by decide), show root = t₂.root from hroot₂.symm]
      refine (hinv₂.uvmfree_blank (by rw [hl₂]; exact fun _ => rfl)).bind fun _ m₃ hr₃ => ?_
      refine wp_pure ⟨fun x hx => ?_, .inl ⟨rfl, hr₃.1, ?_⟩⟩
      · rw [hr₃.2 hx, heq₂ (.inl hx), heq₁ hx]
      · rw [hempty, List.length_nil] at hlen₂
        omega
    · rw [if_neg (by decide), show root = t₂.root from hroot₂.symm]
      have hne : userTop ≠ trampolinePage := by decide
      have hleaf₂ : (t₂.leaf userTop).has PTE_V = false := by
        rw [hl₂, update_of_ne hne]
        exact hzero
      apply wp_bind
      have hmap₂ := hinv₂.map_top (v := userTop) (by decide) (by decide) hleaf₂ trapframe
        (show (PTE_R ||| PTE_W : Pte).has PTE_R = true by decide) (by decide) (by decide)
      refine hmap₂.mono fun r m₃ hr₃ => ?_
      obtain ⟨t₃, hinv₃, hroot₃, heq₃, hlen₃, ⟨rfl, hl₃, hempty⟩ | ⟨rfl, hl₃⟩⟩ := hr₃
      · rw [if_pos (by decide), show t₂.root = t₃.root from hroot₃.symm]
        have hval₃ : (t₃.leaf trampolinePage).has PTE_V = true := by
          rw [hl₃, hl₂, update_self]
          exact (mapped_flags _ _).1
        refine (hinv₃.unmap_top (v := trampolinePage) (by decide) hval₃).bind fun _ m₄ hr₄ => ?_
        refine (hr₄.1.uvmfree_blank (fun v => ?_)).bind fun _ m₅ hr₅ => ?_
        · by_cases he : v = trampolinePage
          · subst v
            rw [Table.leaf_setLeaf_self]
          · rw [Table.leaf_setLeaf_ne he, hl₃, hl₂, update_of_ne he]
            rfl
        · refine wp_pure ⟨fun x hx => ?_, .inl ⟨rfl, hr₅.1, ?_⟩⟩
          · rw [hr₅.2 hx, hr₄.2 (.inl hx), heq₃ (.inl hx), heq₂ (.inl hx), heq₁ hx]
          · rw [hempty, List.length_nil] at hlen₃
            omega
      · rw [if_neg (by decide)]
        refine wp_pure ⟨fun x hx => ?_, .inr ⟨t₃, by rw [hroot₃], hinv₃, ?_, by omega⟩⟩
        · rw [heq₃ (.inl hx), heq₂ (.inl hx), heq₁ hx]
        · rw [hl₂] at hl₃
          exact Table.Covers.blank_top (mapped_flags _ _).1 (mapped_flags _ _).1 hl₃

end Xv6
