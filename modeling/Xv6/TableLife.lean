import Mathlib.Data.Set.Lattice
import Xv6.UserVm

/-! Creating a page table and taking it apart: `uvmcreate`, `uvmfirst`, the pages above
user memory, `freewalk` and `uvmfree`. -/

namespace Xv6

open Function StateProg

variable {L : Layout} {m m' : PhysMem} {env : Env} {t t' : Table} {v q x root level : Nat}
  {p : PtePtr} {refs : Nat → Nat} {S : Set Nat} {page : Nat → Buffer}

def Table.blank (root : Nat) : Table where
  root := root
  mid _ := none
  bot _ := none
  leaf _ := 0

theorem Table.blank_has : (Table.blank root).Has x ↔ x = root := by
  simp [Table.Has, Table.blank]

theorem Table.blank_maps : ¬ (Table.blank root).Maps x := by
  rintro ⟨v, _, hv, _⟩
  exact absurd hv (show ¬ (0 : Pte).has PTE_V = true by decide)

theorem Table.blank_rep (ha : PageAddr root) (hz : page root = fun _ => 0) :
    (Table.blank root).Rep page where
  top i _ := by
    rw [show (Table.blank root).root = root from rfl, hz, pteAt_zero]
    rfl
  mid _ _ h := by cases h
  bot _ _ h := by cases h
  mid_lt _ _ h := by cases h
  bot_mid _ _ h := by cases h
  leaf_bot _ _ := rfl
  addr q hq := by
    rw [Table.blank_has] at hq
    exact hq ▸ ha
  root_mid _ h := by cases h
  root_bot _ h := by cases h
  mid_bot _ _ _ h := by cases h
  mid_inj _ _ _ h := by cases h
  bot_inj _ _ _ h := by cases h

theorem uvmcreate_spec (h : AllocInv L m env.count) :
    Wp uvmcreate (fun r m' =>
      match r with
      | none => m.freelist = [] ∧ m' = m
      | some root => TableInv L m' env (Table.blank root) ∧ m.freelist = root :: m'.freelist ∧
          Set.EqOn m'.page m.page {x | 0 < env.count x}) m := by
  refine h.kalloc.bind fun r m₁ hr => ?_
  cases r with
  | none => exact wp_pure hr
  | some root =>
    obtain ⟨hrange, hz, ha, hf, hpage⟩ := hr
    apply wp_bind_modify
    refine wp_pure ⟨⟨?_, Table.blank_rep hrange.pageAddr (update_self ..), ?_⟩, hf, ?_⟩
    · have ho : owners env (Table.blank root) = update env.count root 1 := by
        funext x
        by_cases he : x = root
        · subst x
          rw [owners_uses (.inl (Table.blank_has.mpr rfl)), update_self, hz]
        · rw [update_of_ne he, owners_not_uses]
          rintro (hx | hx)
          · exact he (Table.blank_has.mp hx)
          · exact Table.blank_maps hx
      rw [ho]
      exact ha.congr rfl rfl
    · refine ⟨Pte.wellFormed_zero, fun u w x hu => ?_, fun x _ hx => Table.blank_maps hx, ?_, ?_, ?_⟩
      · exact absurd ⟨u, hu⟩ Table.blank_maps
      · rintro x hs (hx | hx)
        · have hpos := env.sole_pos x hs
          rw [Table.blank_has.mp hx] at hpos
          omega
        · exact Table.blank_maps hx
      · intro x hx
        rw [Table.blank_has.mp hx]
        exact hz
      · intro u x hx
        exact absurd ⟨u, hx⟩ Table.blank_maps
    · intro x hx
      have hne : x ≠ root := by
        rintro rfl
        change 0 < env.count x at hx
        omega
      exact (update_of_ne hne ..).trans (hpage x hne)

namespace TableInv

theorem map_top {perm : Pte} (h : TableInv L m env t) (hv : userTop ≤ v) (hlt : v < MAXVA / PGSIZE)
    (hleaf : (t.leaf v).has PTE_V = false) (pa : Nat) (hr : perm.has PTE_R = true)
    (hu : perm.has PTE_U = false) (hcow : perm.has PTE_COW = false) :
    Wp (mappages t.root (v * PGSIZE) PGSIZE pa perm) (fun r m' => ∃ t', TableInv L m' env t' ∧
      t'.root = t.root ∧ Set.EqOn m'.page m.page (env.live t) ∧
      m.freelist.length ≤ m'.freelist.length + 2 ∧
      (r = -1 ∧ t'.leaf = t.leaf ∧ m'.freelist = [] ∨
       r = 0 ∧ t'.leaf = update t.leaf v (pa2pte pa ||| perm ||| PTE_V))) m := by
  obtain ⟨hV, hR, hW, hU, hC⟩ := mapped_flags pa perm
  refine (h.mappages_page hlt hleaf pa perm).mono fun r m' hres => ?_
  obtain ⟨t', m₁, hinv, hroot, hl, hpage, hlen, ⟨rfl, rfl, hempty⟩ | ⟨rfl, p, hp, rfl⟩⟩ := hres
  · exact ⟨t', hinv, hroot, hpage, hlen.1, .inl ⟨rfl, hl, hempty⟩⟩
  · refine ⟨t'.setLeaf v (pa2pte pa ||| perm ||| PTE_V), ?_, hroot, ?_, hlen.1,
      .inr ⟨rfl, by rw [Table.setLeaf, hl]⟩⟩
    · apply hinv.setPte hp
      · apply hinv.fits.setLeaf
        · refine ⟨fun hf => ?_, fun hge => by omega, fun _ => hR.trans hr, fun _ => hC.trans hcow,
            fun _ => hU.trans hu⟩
          rw [hV] at hf
          cases hf
        · intro hlt'
          omega
      · apply owners_same
        intro hlt'
        omega
    · intro x hx
      rw [hinv.page_setPte hp _ (Env.live_congr hl ▸ hx)]
      exact hpage hx

theorem unmap_top (h : TableInv L m env t) (hv : userTop ≤ v)
    (hleaf : (t.leaf v).has PTE_V = true) :
    Wp (Xv6.uvmunmap L t.root (v * PGSIZE) 1 false) (fun _ m' => TableInv L m' env (t.setLeaf v 0) ∧
      Set.EqOn m'.page m.page (env.live t)) m := by
  have halign : ¬ v * PGSIZE % PGSIZE ≠ 0 := by
    rw [Nat.mul_mod_left]
    exact fun hh => hh rfl
  have hva : v * PGSIZE + 0 * PGSIZE < MAXVA := by
    by_contra hge
    have hz := (h.fits.leaf v).top (by simp only [MAXVA, PGSIZE] at hge ⊢; omega)
    rw [hleaf] at hz
    cases hz
  have hdiv : (v * PGSIZE + 0 * PGSIZE) / PGSIZE = v := by
    simp only [PGSIZE]
    omega
  obtain ⟨p, hp⟩ := h.rep.ptr_of_valid hleaf
  have hround : ((v * PGSIZE + 1 * PGSIZE) % 2 ^ 64 - v * PGSIZE) / PGSIZE = 1 := by
    simp only [MAXVA, PGSIZE] at hva ⊢
    omega
  unfold Xv6.uvmunmap
  rw [if_neg halign, hround]
  apply wp_bind
  apply wp_bind
  apply h.rep.wp_walk hva
  rw [hdiv, hp]
  apply h.rep.wp_readPte hp
  rw [hleaf]
  simp only [Bool.not_true, Bool.false_eq_true, if_false,
    if_neg (pteFlags_ne_V ((h.fits.leaf v).readable hleaf))]
  apply wp_bind_modify
  refine wp_pure (wp_pure (wp_pure ⟨?_, h.page_setPte hp 0⟩))
  apply h.setPte hp
  · exact h.fits.setLeaf (Pte.wellFormed_zero v) fun hlt => by omega
  · apply owners_same
    intro hlt
    omega

end TableInv

/-- A table `level` levels above the leaves, on the pages of `S`, without valid leaves. -/
def Bare (page : Nat → Buffer) : Nat → Nat → Set Nat → Prop
  | 0, q, S => S = {q} ∧ ∀ i < 512, (pteAt (page q) i).has PTE_V = false
  | level + 1, q, S => ∃ (child : Nat → Option Nat) (T : Nat → Set Nat),
      (∀ i < 512, pteAt (page q) i = tableEntry (child i)) ∧
      (∀ i < 512, ∀ p, child i = some p → PageAddr p ∧ Bare page level p (T i)) ∧
      (∀ i < 512, child i = none → T i = ∅) ∧
      (∀ i < 512, ∀ j < 512, i ≠ j → ∀ x ∈ T i, x ∉ T j) ∧ (∀ i < 512, q ∉ T i) ∧
      S = {x | x = q ∨ ∃ i < 512, x ∈ T i}

theorem Bare.congr {page' : Nat → Buffer} (h : Bare page level q S) (hp : ∀ x ∈ S, page' x = page x) :
    Bare page' level q S := by
  induction level generalizing q S with
  | zero =>
    obtain ⟨rfl, hv⟩ := h
    refine ⟨rfl, ?_⟩
    rw [hp q rfl]
    exact hv
  | succ level ih =>
    obtain ⟨child, T, hread, hchild, hnone, hdisj, hq, rfl⟩ := h
    refine ⟨child, T, ?_, fun i hi p hc => ⟨(hchild i hi p hc).1, ?_⟩, hnone, hdisj, hq, rfl⟩
    · rw [hp q (.inl rfl)]
      exact hread
    · exact ih (hchild i hi p hc).2 fun x hx => hp x (.inr ⟨i, hi, hx⟩)

open Classical in
noncomputable def without (refs : Nat → Nat) (S : Set Nat) (x : Nat) : Nat :=
  if x ∈ S then 0 else refs x

theorem without_mem (h : x ∈ S) : without refs S x = 0 :=
  if_pos h

theorem without_not_mem (h : x ∉ S) :
    without refs S x = refs x := if_neg h

theorem without_without (refs : Nat → Nat) (S T : Set Nat) :
    without (without refs S) T = without refs (S ∪ T) := by
  funext x
  by_cases hT : x ∈ T
  · rw [without_mem hT, without_mem (.inr hT)]
  · rw [without_not_mem hT]
    by_cases hS : x ∈ S
    · rw [without_mem hS, without_mem (.inl hS)]
    · rw [without_not_mem hS, without_not_mem (fun h => h.elim hS hT)]

theorem kfree_last (h : AllocInv L m (without refs S)) (hq : q ∉ S) (h1 : refs q = 1) :
    Wp (kfree L q) (fun _ m' => AllocInv L m' (without refs (S ∪ {q})) ∧
      ∀ x, x ≠ q → m'.page x = m.page x) m := by
  have hone : without refs S q = 1 := (without_not_mem hq).trans h1
  refine (h.kfree (by omega)).mono fun _ m' hr => ⟨?_, fun x hx => hr.2 x (.inl hx)⟩
  have he : update (without refs S) q (without refs S q - 1) = without refs (S ∪ {q}) := by
    rw [← without_without, hone]
    funext x
    by_cases hx : x = q
    · subst x
      rw [update_self, without_mem (Set.mem_singleton q)]
    · have hmem : x ∉ ({q} : Set Nat) := hx
      rw [update_of_ne hx, without_not_mem hmem]
  rw [← he]
  exact hr.1

theorem freewalk_bare (h : Bare m.page level q S) (ha : AllocInv L m refs) (h1 : ∀ x ∈ S, refs x = 1) :
    Wp (freewalk L (level + 1) q) (fun _ m' => AllocInv L m' (without refs S) ∧
      ∀ x, x ∉ S → m'.page x = m.page x) m := by
  induction level generalizing m refs q S with
  | zero =>
    obtain ⟨rfl, hv⟩ := h
    apply wp_bind
    apply wp_loop (fun _ m' => m' = m) rfl
    · rintro i m₁ hi rfl
      apply wp_bind
      refine ⟨_, m₁, rfl, ?_⟩
      beta_reduce
      rw [hv i hi]
      exact wp_pure rfl
    · rintro m₁ rfl
      have hempty : without refs ∅ = refs := funext fun x => without_not_mem (fun hx => hx.elim)
      have hk := kfree_last (hempty.symm ▸ ha) (fun hx => hx.elim) (h1 q rfl)
      rw [Set.empty_union] at hk
      exact hk
  | succ level ih =>
    obtain ⟨child, T, hread, hchild, hnone, hdisj, hq, rfl⟩ := h
    rw [freewalk]
    apply wp_bind
    apply wp_loop (fun i m' => AllocInv L m' (without refs {x | ∃ j < i, x ∈ T j}) ∧
      (∀ x, x ≠ q → (∀ j < i, x ∉ T j) → m'.page x = m.page x) ∧
      ∀ j, i ≤ j → j < 512 → pteAt (m'.page q) j = tableEntry (child j))
    · have hempty : without refs {x | ∃ j < 0, x ∈ T j} = refs := by
        funext x
        apply without_not_mem
        rintro ⟨j, hj, _⟩
        omega
      exact ⟨hempty.symm ▸ ha, fun x _ _ => rfl, fun j _ hj => hread j hj⟩
    · rintro i m₁ hi ⟨hal, hpage, hent⟩
      have hsplit : {x | ∃ j < i + 1, x ∈ T j} = {x | ∃ j < i, x ∈ T j} ∪ T i := by
        ext x
        constructor
        · rintro ⟨j, hj, hx⟩
          by_cases he : j = i
          · exact .inr (he ▸ hx)
          · exact .inl ⟨j, by omega, hx⟩
        · rintro (⟨j, hj, hx⟩ | hx)
          · exact ⟨j, by omega, hx⟩
          · exact ⟨i, by omega, hx⟩
      apply wp_bind
      refine ⟨_, m₁, rfl, ?_⟩
      beta_reduce
      rw [hent i (Nat.le_refl i) hi]
      cases hc : child i with
      | none =>
        apply wp_pure
        rw [hsplit, hnone i hi hc, Set.union_empty]
        exact ⟨hal, fun x hx hj => hpage x hx (fun j hlt => hj j (by omega)),
          fun j hj => hent j (by omega)⟩
      | some r =>
        obtain ⟨haddr, hbare⟩ := hchild i hi r hc
        obtain ⟨hV, hpa, hX⟩ := tableEntry_some haddr
        rw [hV, hX, hpa]
        have hout : ∀ x ∈ T i, x ≠ q ∧ ∀ j < i, x ∉ T j := by
          intro x hx
          exact ⟨fun he => hq i hi (he ▸ hx), fun j hj => hdisj i hi j (by omega) (by omega) x hx⟩
        have hbare₁ : Bare m₁.page level r (T i) :=
          hbare.congr fun x hx => hpage x (hout x hx).1 (hout x hx).2
        have hone : ∀ x ∈ T i, without refs {x | ∃ j < i, x ∈ T j} x = 1 := by
          intro x hx
          rw [without_not_mem (by rintro ⟨j, hj, hxj⟩; exact (hout x hx).2 j hj hxj)]
          exact h1 x (.inr ⟨i, hi, hx⟩)
        refine (ih hbare₁ hal hone).bind fun _ m₂ hr => ?_
        obtain ⟨hal₂, hpage₂⟩ := hr
        apply wp_bind_modify
        apply wp_pure
        rw [without_without, ← hsplit] at hal₂
        refine ⟨hal₂.congr rfl rfl, fun x hx hj => ?_, fun j hj hlt => ?_⟩
        · refine (update_of_ne hx ..).trans ?_
          rw [hpage₂ x (hj i (by omega))]
          exact hpage x hx fun j hlt => hj j (by omega)
        · have hne : j ≠ i := by omega
          have hself : (m₂.setPte ⟨q, i⟩ 0).page q = setPteAt (m₂.page q) i 0 := update_self ..
          rw [hself, pteAt_setPteAt_ne _ _ hne, hpage₂ q (hq i hi)]
          exact hent j (by omega) hlt
    · rintro m₁ ⟨hal, hpage, _⟩
      refine (kfree_last hal (fun ⟨j, hj, hx⟩ => hq j hj hx) (h1 q (.inl rfl))).mono
        fun _ m₂ hr => ⟨?_, fun x hx => ?_⟩
      · have hS : {x | ∃ j < 512, x ∈ T j} ∪ {q} = {x | x = q ∨ ∃ i < 512, x ∈ T i} := by
          ext x
          exact or_comm
        rw [← hS]
        exact hr.1
      · have hxq : x ≠ q := fun he => hx (.inl he)
        rw [hr.2 x hxq]
        exact hpage x hxq fun j hj hxj => hx (.inr ⟨j, hj, hxj⟩)

theorem Table.Rep.bare (h : t.Rep m.page) (hz : ∀ v, (t.leaf v).has PTE_V = false) :
    Bare m.page 2 t.root {x | t.Has x} := by
  let T : Nat → Set Nat := fun i => {x | t.mid i = some x ∨ ∃ j < 512, t.bot (i * 512 + j) = some x}
  have hlower : ∀ i < 512, ∀ p, t.mid i = some p → Bare m.page 1 p (T i) := by
    intro i hi p hp
    refine ⟨fun j => t.bot (i * 512 + j), fun j => {x | t.bot (i * 512 + j) = some x}, h.mid i p hp,
      ?_, ?_, ?_, ?_, ?_⟩
    · intro j hj r hr
      change t.bot (i * 512 + j) = some r at hr
      refine ⟨h.addr r (.inr (.inr ⟨_, hr⟩)), ?_, ?_⟩
      · ext x
        change t.bot (i * 512 + j) = some x ↔ x = r
        rw [hr, Option.some.injEq]
        exact eq_comm
      · intro k hk
        rw [h.bot _ r hr k hk]
        exact hz _
    · intro j _ hn
      change t.bot (i * 512 + j) = none at hn
      ext x
      change t.bot (i * 512 + j) = some x ↔ False
      rw [hn]
      simp
    · intro j hj k hk hne x hx hx'
      have he := h.bot_inj _ _ x hx hx'
      omega
    · intro j _ hx
      exact h.mid_bot i _ p hp hx
    · ext x
      change t.mid i = some x ∨ _ ↔ _
      rw [hp, Option.some.injEq]
      exact or_congr eq_comm Iff.rfl
  have hwhich : ∀ i x, x ∈ T i → i < 512 → (t.mid i = some x ∨ ∃ w, w / 512 = i ∧ t.bot w = some x) := by
    rintro i x (hx | ⟨j, hj, hx⟩) _
    · exact .inl hx
    · exact .inr ⟨i * 512 + j, by omega, hx⟩
  refine ⟨t.mid, T, h.top, ?_, ?_, ?_, ?_, ?_⟩
  · intro i hi p hp
    exact ⟨h.addr p (.inr (.inl ⟨i, hp⟩)), hlower i hi p hp⟩
  · intro i _ hn
    ext x
    constructor
    · rintro (hx | ⟨j, hj, hx⟩)
      · rw [hn] at hx
        cases hx
      · obtain ⟨p, hp⟩ := h.bot_mid _ x hx
        rw [show (i * 512 + j) / 512 = i by omega, hn] at hp
        cases hp
    · intro hx
      exact hx.elim
  · intro i hi j hj hne x hx hx'
    rcases hwhich i x hx hi with hi' | ⟨w, hw, hwx⟩
    · rcases hwhich j x hx' hj with hj' | ⟨w', hw', hwx'⟩
      · exact hne (h.mid_inj i j x hi' hj')
      · exact h.mid_bot i w' x hi' hwx'
    · rcases hwhich j x hx' hj with hj' | ⟨w', hw', hwx'⟩
      · exact h.mid_bot j w x hj' hwx
      · have he := h.bot_inj w w' x hwx hwx'
        omega
  · intro i hi hx
    rcases hwhich i t.root hx hi with hx | ⟨w, _, hx⟩
    · exact h.root_mid i hx
    · exact h.root_bot w hx
  · ext x
    constructor
    · rintro (hx | ⟨i, hx⟩ | ⟨w, hx⟩)
      · exact .inl hx
      · exact .inr ⟨i, h.mid_lt i x hx, .inl hx⟩
      · obtain ⟨p, hp⟩ := h.bot_mid w x hx
        refine .inr ⟨w / 512, h.mid_lt _ p hp, .inr ⟨w % 512, by omega, ?_⟩⟩
        rw [show w / 512 * 512 + w % 512 = w by omega]
        exact hx
    · rintro (hx | ⟨i, _, hx | ⟨j, _, hx⟩⟩)
      · exact .inl hx
      · exact .inr (.inl ⟨i, hx⟩)
      · exact .inr (.inr ⟨_, hx⟩)

theorem TableInv.freewalk (h : TableInv L m env t) (hz : ∀ v, (t.leaf v).has PTE_V = false) :
    Wp (Xv6.freewalk L 3 t.root) (fun _ m' => AllocInv L m' env.count ∧
      Set.EqOn m'.page m.page {x | 0 < env.count x}) m := by
  have hmaps : ∀ x, ¬ t.Maps x := by
    rintro x ⟨v, _, hv, _⟩
    rw [hz v] at hv
    cases hv
  have hone : ∀ x ∈ {x | t.Has x}, owners env t x = 1 := by
    intro x hx
    rw [owners_uses (.inl hx), h.fits.has x hx]
  refine (freewalk_bare (h.rep.bare hz) h.alloc hone).mono fun _ m' hr => ⟨?_, fun x hx => ?_⟩
  · have hcount : without (owners env t) {x | t.Has x} = env.count := by
      funext x
      by_cases hx : t.Has x
      · rw [without_mem hx, h.fits.has x hx]
      · rw [without_not_mem hx, owners_not_uses (fun hu => hu.elim hx (hmaps x))]
    rw [← hcount]
    exact hr.1
  · apply hr.2
    intro hh
    have h0 := h.fits.has x hh
    change 0 < env.count x at hx
    omega

theorem TableInv.uvmfree {sz : Nat} (h : TableInv L m env t)
    (hv : ∀ v, (t.leaf v).has PTE_V = true ↔ v < pageCount sz) (htop : pageCount sz ≤ userTop) :
    Wp (Xv6.uvmfree L t.root sz) (fun _ m' => AllocInv L m' env.count ∧
      Set.EqOn m'.page m.page {x | 0 < env.count x}) m := by
  have hclear : ∀ v, ((t.clear 0 (pageCount sz)).leaf v).has PTE_V = false := by
    intro v
    by_cases hlt : v < pageCount sz
    · rw [show (t.clear 0 (pageCount sz)).leaf v = 0 from if_pos (by omega)]
      decide
    · rw [Table.clear_leaf_of_not (by omega), Bool.eq_false_iff]
      exact fun hh => hlt ((hv v).mp hh)
  unfold Xv6.uvmfree
  by_cases hsz : sz > 0
  · rw [if_pos hsz]
    apply wp_bind
    have hall : ∀ i < pageCount sz, 0 + i < userTop ∧ (t.leaf (0 + i)).has PTE_V = true := by
      intro i hi
      rw [Nat.zero_add]
      exact ⟨by omega, (hv i).mpr hi⟩
    have hun := h.uvmunmap hall
    refine hun.mono fun _ m₁ hr => ?_
    refine (hr.1.freewalk hclear).mono fun _ m₂ hr₂ => ⟨hr₂.1, fun x hx => ?_⟩
    rw [hr₂.2 hx, hr.2 (.inl hx)]
  · rw [if_neg hsz]
    have hzero : pageCount sz = 0 := by
      simp only [pageCount, pgRoundUp, PGSIZE]
      omega
    rw [hzero, Table.clear_zero] at hclear
    exact h.freewalk hclear

theorem TableInv.uvmfirst (h : TableInv L m env t) (src : List UInt8)
    (hleaf : (t.leaf 0).has PTE_V = false) (hlen : src.length < PGSIZE)
    (hfree : 4 ≤ m.freelist.length) :
    Wp (Xv6.uvmfirst t.root src) (fun _ m' => ∃ t' x, TableInv L m' env t' ∧ t'.root = t.root ∧
      PageAddr x ∧ t'.leaf = update t.leaf 0
        (pa2pte x ||| (PTE_W ||| PTE_R ||| PTE_X ||| PTE_U) ||| PTE_V) ∧
      m'.page x = Buffer.write (fun _ => 0) 0 src ∧
      Set.EqOn m'.page m.page (env.live t) ∧ m.freelist.length ≤ m'.freelist.length + 3) m := by
  unfold Xv6.uvmfirst
  rw [if_neg (by omega)]
  refine h.kalloc.bind fun r m₁ hr => ?_
  cases r with
  | none =>
    rw [hr.1] at hfree
    exact absurd hfree (by decide)
  | some mem =>
    obtain ⟨hinv, hrange, hz, hf, hpage⟩ := hr
    have hcons : m.freelist.length = m₁.freelist.length + 1 := by rw [hf]; rfl
    apply wp_bind_modify
    apply wp_bind
    have hmap := hinv.map_zeroed hz hpage (show 0 < userTop by decide) hleaf
      (show (PTE_W ||| PTE_R ||| PTE_X ||| PTE_U : Pte).toNat < 1024 by decide) (by decide)
      fun _ => by decide
    refine hmap.mono fun r m₂ hr => ?_
    obtain ⟨t', hroot, hmem, hkeep, hlen₂, ⟨_, _, _, hempty⟩ | ⟨_, hinv₂, hl⟩⟩ := hr
    · rw [hempty, List.length_nil] at hlen₂
      omega
    · have hpa : pte2pa (pa2pte mem ||| (PTE_W ||| PTE_R ||| PTE_X ||| PTE_U) ||| PTE_V) = mem :=
        mapped_pa hrange.pageAddr (by decide)
      have hat : t'.MapsAt 0 mem := by
        refine ⟨by decide, ?_, ?_⟩
        · rw [hl, update_self]
          exact (mapped_flags mem _).1
        · rw [hl, update_self, hpa]
      apply wp_modify
      refine ⟨t', mem, ?_, hroot, hrange.pageAddr, hl, ?_, fun x hx => ?_, ?_⟩
      · refine hinv₂.congr rfl rfl fun x hx => update_of_ne ?_ _ _
        rintro rfl
        exact hinv₂.fits.apart _ hx ⟨0, hat⟩
      · simp only [update_self, hmem]
      · exact (update_of_ne (hkeep x hx).1 ..).trans (hkeep x hx).2
      · change m.freelist.length ≤ m₂.freelist.length + 3
        omega

end Xv6
