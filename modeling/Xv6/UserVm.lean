import Xv6.PrivateMemory
import Xv6.UserPages

/-! The functions of `kernel/vm.c` on one user page table: what they do to its leaf
entries and to the memory the process sees. -/

namespace Xv6

open Function StateProg

variable {L : Layout} {m m' : PhysMem} {env : Env} {t t' : Table} {v q : Nat} {p : PtePtr}

namespace Table

def view (page : Nat → Buffer) (t : Table) : UserMem := fun v =>
  if (t.leaf v).has PTE_V && (t.leaf v).has PTE_U then
    some (page (pte2pa (t.leaf v)), (t.leaf v).has PTE_W || (t.leaf v).has PTE_COW)
  else none

def clear (t : Table) (v n : Nat) : Table :=
  { t with leaf := fun u => if v ≤ u ∧ u < v + n then 0 else t.leaf u }

theorem clear_zero (t : Table) (v : Nat) : t.clear v 0 = t := by
  have hl : (fun u => if v ≤ u ∧ u < v + 0 then 0 else t.leaf u) = t.leaf := by
    funext u
    rw [if_neg (by omega)]
  rw [clear, hl]

theorem clear_succ (t : Table) (v n : Nat) : t.clear v (n + 1) = (t.clear v n).setLeaf (v + n) 0 := by
  have hl : (t.clear v (n + 1)).leaf = update (t.clear v n).leaf (v + n) 0 := by
    funext u
    by_cases he : u = v + n
    · subst u
      rw [update_self]
      exact if_pos (by omega)
    · rw [update_of_ne he]
      change (if _ then _ else _) = if _ then _ else _
      have hiff : (v ≤ u ∧ u < v + (n + 1)) ↔ (v ≤ u ∧ u < v + n) := by omega
      simp only [hiff]
  rw [setLeaf, ← hl]
  rfl

variable {u : Nat}

theorem clear_leaf_of_not {n : Nat} (h : ¬ (v ≤ u ∧ u < v + n)) : (t.clear v n).leaf u = t.leaf u :=
  if_neg h

theorem Fits.view_top (h : t.Fits env) (hu : userTop ≤ u) (page : Nat → Buffer) :
    t.view page u = none := by
  rw [view, (h.leaf u).user hu, Bool.and_false]
  rfl

theorem Fits.view_congr (h : t.Fits env) (hl : t'.leaf u = t.leaf u)
    (hp : ∀ x, t.MapsAt u x → m'.page x = m.page x) : t'.view m'.page u = t.view m.page u := by
  rw [view, view, hl]
  by_cases hv : (t.leaf u).has PTE_V && (t.leaf u).has PTE_U
  · rw [if_pos hv, if_pos hv]
    rw [Bool.and_eq_true] at hv
    have hu : u < userTop := by
      by_contra hge
      rw [(h.leaf u).user (by omega)] at hv
      exact absurd hv.2 (by decide)
    rw [hp _ ⟨hu, hv.1, rfl⟩]
  · rw [if_neg hv, if_neg hv]

end Table

theorem Env.live_congr (h : t'.leaf = t.leaf) : env.live t' = env.live t := by
  ext x
  simp only [Env.live, Table.Maps, Table.MapsAt, h]

def pageCount (sz : Nat) : Nat := pgRoundUp sz / PGSIZE

theorem pgRoundUp_eq (sz : Nat) : pgRoundUp sz = pageCount sz * PGSIZE := by
  simp only [pageCount, pgRoundUp, PGSIZE]
  omega

theorem pageCount_mono {a b : Nat} (h : a ≤ b) : pageCount a ≤ pageCount b := by
  simp only [pageCount, pgRoundUp, PGSIZE]
  omega

theorem pageCount_mul (n : Nat) : pageCount (n * PGSIZE) = n := by
  simp only [pageCount, pgRoundUp, PGSIZE]
  omega

namespace TableInv

theorem unmap (h : TableInv L m env t) (hm : t.MapsAt v q) (hp : t.ptr v = some p) :
    Wp (kfree L q) (fun _ m' => TableInv L (m'.setPte p 0) env (t.setLeaf v 0) ∧
      Set.EqOn (m'.setPte p 0).page m.page (env.live (t.setLeaf v 0))) m := by
  have hpos : 0 < owners env t q := by
    rw [owners_uses (.inr ⟨v, hm⟩)]
    omega
  refine (h.alloc.kfree hpos).mono fun _ m' hr => ?_
  obtain ⟨ha, hpage⟩ := hr
  have hne : ∀ x, t.Has x → x ≠ q := fun x hx he => h.fits.apart q (he ▸ hx) ⟨v, hm⟩
  have hrep : t.Rep m'.page := h.rep.congr fun x hx => hpage x (.inl (hne x hx))
  have hfits : (t.setLeaf v 0).Fits env :=
    h.fits.setLeaf (Pte.wellFormed_zero v) fun _ h0 => absurd h0 (by decide)
  have hinv : TableInv L (m'.setPte p 0) env (t.setLeaf v 0) := by
    refine ⟨?_, hrep.setPte hp 0, hfits⟩
    rw [h.fits.owners_unmap hm]
    exact ha.congr rfl rfl
  refine ⟨hinv, ?_⟩
  intro x hx
  rw [hrep.page_setPte hp 0 (hfits.not_has_live hx)]
  apply hpage
  rcases hx with hx | hx
  · by_cases he : x = q
    · subst x
      rw [owners_uses (.inr ⟨v, hm⟩)]
      omega
    · exact .inl he
  · exact .inl ((h.fits.maps_setLeaf_zero hm).mp hx).2

theorem uvmunmap (h : TableInv L m env t) {n : Nat}
    (hv : ∀ i < n, v + i < userTop ∧ (t.leaf (v + i)).has PTE_V = true) :
    Wp (uvmunmap L t.root (v * PGSIZE) n true) (fun _ m' => TableInv L m' env (t.clear v n) ∧
      Set.EqOn m'.page m.page (env.live (t.clear v n))) m := by
  have halign : ¬ v * PGSIZE % PGSIZE ≠ 0 := by
    rw [Nat.mul_mod_left]
    exact fun hh => hh rfl
  have hrounds : ((v * PGSIZE + n * PGSIZE) % 2 ^ 64 - v * PGSIZE) / PGSIZE = n := by
    cases n with
    | zero =>
      have := Nat.mod_le (v * PGSIZE) (2 ^ 64)
      rw [Nat.zero_mul, Nat.add_zero, Nat.sub_eq_zero_of_le this, Nat.zero_div]
    | succ n =>
      have htop := (hv n (Nat.lt_succ_self n)).1
      simp only [userTop, TRAPFRAME, TRAMPOLINE, MAXVA, PGSIZE] at htop ⊢
      omega
  unfold Xv6.uvmunmap
  rw [if_neg halign, hrounds]
  apply wp_bind
  apply wp_loop (fun i m' => TableInv L m' env (t.clear v i) ∧
    Set.EqOn m'.page m.page (env.live (t.clear v i)))
  · rw [Table.clear_zero]
    exact ⟨h, fun _ _ => rfl⟩
  · intro i m₁ hi hI
    obtain ⟨hinv, hpage⟩ := hI
    obtain ⟨htop, hval⟩ := hv i hi
    have hva : v * PGSIZE + i * PGSIZE < MAXVA := by
      simp only [userTop, TRAPFRAME, TRAMPOLINE, MAXVA, PGSIZE] at htop ⊢
      omega
    have hdiv : (v * PGSIZE + i * PGSIZE) / PGSIZE = v + i := by
      simp only [PGSIZE]
      omega
    have hleaf : (t.clear v i).leaf (v + i) = t.leaf (v + i) :=
      Table.clear_leaf_of_not (by omega)
    have hm : (t.clear v i).MapsAt (v + i) (pte2pa (t.leaf (v + i))) :=
      ⟨htop, by rw [hleaf]; exact hval, by rw [hleaf]⟩
    obtain ⟨p, hp⟩ := hinv.rep.ptr_of_valid hm.2.1
    have hr := (hinv.fits.leaf (v + i)).readable hm.2.1
    rw [hleaf] at hr
    apply hinv.rep.wp_walk hva
    rw [hdiv, hp]
    apply hinv.rep.wp_readPte hp
    rw [hleaf, hval]
    simp only [Bool.not_true, Bool.false_eq_true, if_false, if_neg (pteFlags_ne_V hr), if_true]
    refine (hinv.unmap hm hp).bind fun _ m₂ hr => ?_
    apply wp_bind_modify
    apply wp_pure
    rw [Table.clear_succ]
    refine ⟨hr.1, fun x hx => (hr.2 hx).trans (hpage ?_)⟩
    rcases hx with hx | hx
    · exact .inl hx
    · exact .inr ((hinv.fits.maps_setLeaf_zero hm).mp hx).1
  · intro m₁ hI
    exact wp_pure hI

theorem uvmdealloc (h : TableInv L m env t) {oldsz newsz : Nat}
    (hv : ∀ u, pageCount newsz ≤ u → u < pageCount oldsz → u < userTop ∧ (t.leaf u).has PTE_V = true) :
    Wp (uvmdealloc L t.root oldsz newsz) (fun r m' => r = min oldsz newsz ∧
      TableInv L m' env (t.clear (pageCount newsz) (pageCount oldsz - pageCount newsz)) ∧
      Set.EqOn m'.page m.page
        (env.live (t.clear (pageCount newsz) (pageCount oldsz - pageCount newsz)))) m := by
  unfold Xv6.uvmdealloc
  by_cases hge : newsz ≥ oldsz
  · rw [if_pos hge]
    have hz : pageCount oldsz - pageCount newsz = 0 := by
      have hmono := pageCount_mono hge
      omega
    rw [hz, Table.clear_zero]
    exact wp_pure ⟨by omega, h, fun _ _ => rfl⟩
  · rw [if_neg hge]
    by_cases hlt : pgRoundUp newsz < pgRoundUp oldsz
    · rw [if_pos hlt, pgRoundUp_eq newsz, pgRoundUp_eq oldsz, ← Nat.sub_mul,
        Nat.mul_div_cancel _ (by decide)]
      refine (h.uvmunmap ?_).bind fun _ m' hr => ?_
      · intro i hi
        exact hv _ (by omega) (by omega)
      · exact wp_pure ⟨by omega, hr⟩
    · rw [if_neg hlt]
      have hz : pageCount oldsz - pageCount newsz = 0 := by
        rw [pgRoundUp_eq, pgRoundUp_eq] at hlt
        simp only [PGSIZE] at hlt
        omega
      rw [hz, Table.clear_zero]
      exact wp_pure ⟨by omega, h, fun _ _ => rfl⟩

theorem map_fresh {perm : Pte} (h : TableInv L m (env.add q) t) (hz : env.count q = 0)
    (hv : v < userTop) (hleaf : (t.leaf v).has PTE_V = false) (hlow : perm.toNat < 1024)
    (hr : perm.has PTE_R = true) (hcow : perm.has PTE_W = true → perm.has PTE_COW = false) :
    Wp (mappages t.root (v * PGSIZE) PGSIZE q perm) (fun r m' => ∃ t', t'.root = t.root ∧
      Set.EqOn m'.page m.page ((env.add q).live t) ∧
      (m.freelist.length ≤ m'.freelist.length + 2 ∧ m'.freelist.length ≤ m.freelist.length) ∧
      (r = -1 ∧ TableInv L m' (env.add q) t' ∧ t'.leaf = t.leaf ∧ m'.freelist = [] ∨
       r = 0 ∧ TableInv L m' env t' ∧
        t'.leaf = update t.leaf v (pa2pte q ||| perm ||| PTE_V))) m := by
  have hmax : v < MAXVA / PGSIZE := by
    simp only [userTop, TRAPFRAME, TRAMPOLINE, MAXVA, PGSIZE] at hv ⊢
    omega
  have hrange : L.InRange q := by
    apply h.alloc.inRange
    rw [owners_add, update_self]
    omega
  obtain ⟨hV, hR, hW, hU, hC⟩ := mapped_flags q perm
  have hpa : pte2pa (pa2pte q ||| perm ||| PTE_V) = q := mapped_pa hrange.pageAddr hlow
  refine (h.mappages_page hmax hleaf q perm).mono fun r m' hres => ?_
  obtain ⟨t', m₁, hinv, hroot, hl, hpage, hlen, ⟨rfl, rfl, hempty⟩ | ⟨rfl, p, hp, rfl⟩⟩ := hres
  · exact ⟨t', hroot, hpage, hlen, .inl ⟨rfl, hinv, hl, hempty⟩⟩
  · have hnot : ¬ t'.Uses q := hinv.fits.not_uses_added
    have hlive : (env.add q).live t' = (env.add q).live t := Env.live_congr hl
    refine ⟨t'.setLeaf v (pa2pte q ||| perm ||| PTE_V), hroot, ?_, hlen, .inr ⟨rfl, ?_, ?_⟩⟩
    · intro x hx
      rw [hinv.page_setPte hp _ (hlive ▸ hx)]
      exact hpage hx
    · apply hinv.setPte hp
      · apply hinv.fits.drop.setLeaf
        · refine ⟨fun hf => ?_, fun hge => ?_, fun _ => by rw [hR, hr], fun hw => ?_, fun hge => ?_⟩
          · rw [hV] at hf
            cases hf
          · omega
          · rw [hC]
            exact hcow (hW ▸ hw)
          · omega
        · intro _ _
          rw [hpa]
          refine ⟨fun hs => ?_, fun hh => hnot (.inl hh), fun _ => hz,
            fun u _ hu => hnot (.inr ⟨u, hu⟩)⟩
          have hpos := env.sole_pos q hs
          omega
      · rw [owners_map (by rw [hl]; exact hleaf) hv hV (by rw [hpa]; exact hnot), hpa, owners_add]
    · rw [Table.setLeaf, hl]

theorem map_zeroed {perm : Pte} {m₁ : PhysMem} (h : TableInv L m₁ (env.add q) t)
    (hz : env.count q = 0) (hpage : ∀ x, x ≠ q → m₁.page x = m.page x)
    (hv : v < userTop) (hleaf : (t.leaf v).has PTE_V = false) (hlow : perm.toNat < 1024)
    (hr : perm.has PTE_R = true) (hcow : perm.has PTE_W = true → perm.has PTE_COW = false) :
    Wp (mappages t.root (v * PGSIZE) PGSIZE q perm) (fun r m' => ∃ t', t'.root = t.root ∧
      m'.page q = (fun _ => 0) ∧ (∀ x ∈ env.live t, x ≠ q ∧ m'.page x = m.page x) ∧
      (m₁.freelist.length ≤ m'.freelist.length + 2 ∧ m'.freelist.length ≤ m₁.freelist.length) ∧
      (r = -1 ∧ TableInv L m' (env.add q) t' ∧ t'.leaf = t.leaf ∧ m'.freelist = [] ∨
       r = 0 ∧ TableInv L m' env t' ∧
        t'.leaf = update t.leaf v (pa2pte q ||| perm ||| PTE_V)))
      { m₁ with page := update m₁.page q (fun _ => 0) } := by
  have hnot : ¬ t.Uses q := h.fits.not_uses_added
  have hinv : TableInv L { m₁ with page := update m₁.page q (fun _ => 0) } (env.add q) t := by
    refine h.congr rfl rfl fun x hx => update_of_ne ?_ _ _
    rintro rfl
    exact hnot (.inl hx)
  refine (hinv.map_fresh hz hv hleaf hlow hr hcow).mono fun r m' hres => ?_
  obtain ⟨t', hroot, heq, hlen, hcase⟩ := hres
  refine ⟨t', hroot, ?_, fun x hx => ?_, hlen, hcase⟩
  · have hlive : q ∈ (env.add q).live t := .inl (by simp [Env.add])
    rw [heq hlive]
    exact update_self ..
  · have hne : x ≠ q := by
      rintro rfl
      rcases hx with hx | hx
      · omega
      · exact hnot (.inr hx)
    have hlive : x ∈ (env.add q).live t := by
      simpa only [Env.live, Env.add, Set.mem_ofPred_eq, update_of_ne hne] using hx
    refine ⟨hne, ?_⟩
    rw [heq hlive, ← hpage x hne]
    exact update_of_ne hne ..

end TableInv

structure Table.Extends (env : Env) (page : Nat → Buffer) (perm : Pte) (t t' : Table) (lo hi : Nat) :
    Prop where
  root : t'.root = t.root
  fresh : ∀ u, lo ≤ u → u < hi → ∃ x, t'.leaf u = pa2pte x ||| perm ||| PTE_V ∧ PageAddr x ∧
    page x = (fun _ => 0) ∧ env.count x = 0
  same : ∀ u, ¬ (lo ≤ u ∧ u < hi) → t'.leaf u = t.leaf u

namespace Table.Extends

variable {perm : Pte} {lo hi u x : Nat} {t'' : Table}

theorem valid (h : Extends env m.page perm t t' lo hi) (h1 : lo ≤ u) (h2 : u < hi) :
    (t'.leaf u).has PTE_V = true := by
  obtain ⟨x, hx, _⟩ := h.fresh u h1 h2
  rw [hx]
  exact (mapped_flags x perm).1

theorem undo (h : Extends env m.page perm t t' lo hi) (hf : t.Fits env)
    (hz : ∀ u, lo ≤ u → u < hi → (t.leaf u).has PTE_V = false) (hle : lo ≤ hi) :
    (t'.clear lo (hi - lo)).leaf = t.leaf := by
  funext u
  by_cases hu : lo ≤ u ∧ u < hi
  · have h0 := (hf.leaf u).zero (hz u hu.1 hu.2)
    rw [h0]
    exact if_pos (by omega)
  · rw [Table.clear_leaf_of_not (by omega)]
    exact h.same u hu

theorem maps (h : Extends env m.page perm t t' lo hi)
    (hz : ∀ u, lo ≤ u → u < hi → (t.leaf u).has PTE_V = false) (hx : t.Maps x) : t'.Maps x := by
  obtain ⟨u, h1, h2, h3⟩ := hx
  have hu : ¬ (lo ≤ u ∧ u < hi) := by
    intro hu
    rw [hz u hu.1 hu.2] at h2
    cases h2
  exact ⟨u, h1, by rw [h.same u hu]; exact h2, by rw [h.same u hu]; exact h3⟩

theorem mapsAt (h : Extends env m.page perm t t' lo hi) (hlow : perm.toNat < 1024) (hi' : hi ≤ userTop)
    (h1 : lo ≤ u) (h2 : u < hi) : ∃ x, t'.leaf u = pa2pte x ||| perm ||| PTE_V ∧
      PageAddr x ∧ m.page x = (fun _ => 0) ∧ env.count x = 0 ∧ t'.MapsAt u x := by
  obtain ⟨x, hx, ha, h0, hc⟩ := h.fresh u h1 h2
  refine ⟨x, hx, ha, h0, hc, by omega, h.valid h1 h2, ?_⟩
  rw [hx, mapped_pa ha hlow]

theorem congr (h : Extends env m.page perm t t' lo hi) (hlow : perm.toNat < 1024) (hi' : hi ≤ userTop)
    (hroot : t''.root = t'.root) (hl : t''.leaf = t'.leaf)
    (hp : ∀ x, t'.Maps x → m'.page x = m.page x) : Extends env m'.page perm t t'' lo hi where
  root := hroot.trans h.root
  fresh u h1 h2 := by
    obtain ⟨x, hx, ha, h0, hc, hm⟩ := h.mapsAt hlow hi' h1 h2
    exact ⟨x, by rw [hl, hx], ha, by rw [hp x ⟨u, hm⟩, h0], hc⟩
  same u hu := by rw [hl, h.same u hu]

theorem succ (h : Extends env m.page perm t t' lo hi) (hlow : perm.toNat < 1024) (hi' : hi ≤ userTop)
    (hle : lo ≤ hi) (hroot : t''.root = t'.root)
    (hl : t''.leaf = update t'.leaf hi (pa2pte x ||| perm ||| PTE_V))
    (hp : ∀ y, t'.Maps y → m'.page y = m.page y) (ha : PageAddr x) (h0 : m'.page x = fun _ => 0)
    (hc : env.count x = 0) :
    Extends env m'.page perm t t'' lo (hi + 1) where
  root := hroot.trans h.root
  fresh u h1 h2 := by
    by_cases he : u = hi
    · subst u
      exact ⟨x, by rw [hl, update_self], ha, h0, hc⟩
    · obtain ⟨y, hy, hya, hy0, hyc, hm⟩ := h.mapsAt hlow hi' h1 (by omega)
      exact ⟨y, by rw [hl, update_of_ne he, hy], hya, by rw [hp y ⟨u, hm⟩, hy0], hyc⟩
  same u hu := by
    have he : u ≠ hi := by omega
    rw [hl, update_of_ne he, h.same u (by omega)]

end Table.Extends

namespace TableInv

theorem uvmalloc_undo {perm : Pte} {b i : Nat} (h : t.Fits env) (hi : TableInv L m' env t')
    (hext : Table.Extends env m'.page perm t t' b (b + i))
    (hz : ∀ u, b ≤ u → u < b + i → (t.leaf u).has PTE_V = false) (htop : b + i ≤ userTop)
    (hpage : Set.EqOn m'.page m.page (env.live t)) :
    Wp (Xv6.uvmdealloc L t.root (b * PGSIZE + i * PGSIZE) (b * PGSIZE)) (fun _ m'' => ∃ t'',
      TableInv L m'' env t'' ∧ t''.root = t.root ∧ t''.leaf = t.leaf ∧
      Set.EqOn m''.page m.page (env.live t)) m' := by
  rw [← hext.root, ← Nat.add_mul]
  have hvalid : ∀ u, pageCount (b * PGSIZE) ≤ u → u < pageCount ((b + i) * PGSIZE) →
      u < userTop ∧ (t'.leaf u).has PTE_V = true := by
    intro u h1 h2
    rw [pageCount_mul] at h1 h2
    exact ⟨by omega, hext.valid h1 h2⟩
  refine (hi.uvmdealloc hvalid).mono fun r m'' hr => ?_
  rw [pageCount_mul, pageCount_mul] at hr
  obtain ⟨_, hinv, heq⟩ := hr
  have hleaf := hext.undo h hz (Nat.le_add_right b i)
  refine ⟨_, hinv, rfl, hleaf, fun x hx => ?_⟩
  rw [Env.live_congr hleaf] at heq
  rw [heq hx, hpage hx]

theorem uvmalloc {oldsz newsz : Nat} {xperm : Pte} (h : TableInv L m env t)
    (hroom : pageCount oldsz + m.freelist.length ≤ userTop)
    (hz : ∀ u, pageCount oldsz ≤ u → u < userTop → (t.leaf u).has PTE_V = false)
    (hlow : (PTE_R ||| PTE_U ||| xperm).toNat < 1024)
    (hr : (PTE_R ||| PTE_U ||| xperm).has PTE_R = true)
    (hcow : (PTE_R ||| PTE_U ||| xperm).has PTE_W = true →
      (PTE_R ||| PTE_U ||| xperm).has PTE_COW = false) :
    Wp (uvmalloc L t.root oldsz newsz xperm) (fun r m' => ∃ t', TableInv L m' env t' ∧
      t'.root = t.root ∧ Set.EqOn m'.page m.page (env.live t) ∧
      (r = none ∧ t'.leaf = t.leaf ∧ oldsz ≤ newsz ∨
       r = some oldsz ∧ newsz < oldsz ∧ t'.leaf = t.leaf ∨
       r = some newsz ∧ newsz ≠ 0 ∧ oldsz ≤ newsz ∧ pageCount newsz ≤ userTop ∧
        Table.Extends env m'.page (PTE_R ||| PTE_U ||| xperm) t t' (pageCount oldsz) (pageCount newsz))) m := by
  unfold Xv6.uvmalloc
  by_cases hlt : newsz < oldsz
  · rw [if_pos hlt]
    exact wp_pure ⟨t, h, rfl, fun _ _ => rfl, .inr (.inl ⟨rfl, hlt, rfl⟩)⟩
  rw [if_neg hlt, pgRoundUp_eq]
  have hmono : pageCount oldsz ≤ pageCount newsz := pageCount_mono (by omega)
  have hrounds : (newsz - pageCount oldsz * PGSIZE + PGSIZE - 1) / PGSIZE =
      pageCount newsz - pageCount oldsz := by
    simp only [pageCount, pgRoundUp, PGSIZE] at hmono ⊢
    omega
  dsimp only
  rw [hrounds]
  generalize PTE_R ||| PTE_U ||| xperm = perm at *
  let failed : PhysMem → Prop := fun m'' => ∃ t'', TableInv L m'' env t'' ∧ t''.root = t.root ∧
    t''.leaf = t.leaf ∧ Set.EqOn m''.page m.page (env.live t)
  let done : Nat → PhysMem → Prop := fun i m' => ∃ t', TableInv L m' env t' ∧
    Table.Extends env m'.page perm t t' (pageCount oldsz) (pageCount oldsz + i) ∧
    Set.EqOn m'.page m.page (env.live t) ∧ m'.freelist.length + i ≤ m.freelist.length
  refine (wp_loop_exit done (fun _ => failed) ?_ ?_).bind fun r m' hres => ?_
  · exact ⟨t, h, ⟨rfl, fun u h1 h2 => by omega, fun u _ => rfl⟩, fun _ _ => rfl, by omega⟩
  · rintro i m₁ hi ⟨t₁, hinv, hext, hpage, hlen⟩
    have hzi : ∀ u, pageCount oldsz ≤ u → u < pageCount oldsz + i → (t.leaf u).has PTE_V = false :=
      fun u h1 h2 => hz u h1 (by omega)
    refine hinv.kalloc.bind fun r m₂ hr₂ => ?_
    cases r with
    | none =>
      obtain ⟨_, rfl⟩ := hr₂
      refine (uvmalloc_undo h.fits hinv hext hzi (by omega) hpage).bind fun _ m₃ hr₃ => ?_
      exact wp_pure hr₃
    | some mem =>
      obtain ⟨hinv₂, hrange, hz₂, hf₂, hpage₂⟩ := hr₂
      have hcons : m₁.freelist.length = m₂.freelist.length + 1 := by rw [hf₂]; rfl
      apply wp_bind_modify
      apply wp_bind
      rw [← Nat.add_mul, ← hext.root]
      have hleaf : (t₁.leaf (pageCount oldsz + i)).has PTE_V = false := by
        rw [hext.same _ (by omega)]
        exact hz _ (by omega) (by omega)
      refine (hinv₂.map_zeroed hz₂ hpage₂ (by omega) hleaf hlow hr hcow).mono fun r m₃ hr₃ => ?_
      obtain ⟨t₃, hroot, hmem, hkeep, hlen₃, hres⟩ := hr₃
      have hold : ∀ x, x ∈ env.live t → x ∈ env.live t₁ := by
        rintro x (hx | hx)
        · exact .inl hx
        · exact .inr (hext.maps hzi hx)
      rcases hres with ⟨rfl, hinv₄, hl, _⟩ | ⟨rfl, hinv₄, hl⟩
      · simp only [ne_eq, Int.reduceNeg, Int.reduceEq, not_false_eq_true, if_true]
        refine hinv₄.kfree_added.bind fun _ m₄ hr₄ => ?_
        obtain ⟨hinv₅, hpage₅⟩ := hr₄
        have hkeep₅ : ∀ x, x ∈ env.live t₁ → m₄.page x = m₁.page x := by
          intro x hx
          rw [hpage₅ x (hkeep x hx).1, (hkeep x hx).2]
        have hext₅ := hext.congr hlow (by omega) hroot hl fun x hx => hkeep₅ x (.inr hx)
        apply wp_bind
        rw [hext.root, Nat.add_mul]
        refine (uvmalloc_undo h.fits hinv₅ hext₅ hzi (by omega) (fun x hx => ?_)).mono
          fun _ m₅ hr₅ => wp_pure hr₅
        rw [hkeep₅ x (hold x hx), hpage hx]
      · simp only [ne_eq, not_true_eq_false, if_false]
        apply wp_pure
        refine ⟨t₃, hinv₄, ?_, fun x hx => ?_, by omega⟩
        · exact hext.succ hlow (by omega) (by omega) hroot hl (fun x hx => (hkeep x (.inr hx)).2)
            hrange.pageAddr hmem hz₂
        · rw [(hkeep x (hold x hx)).2, hpage hx]
  · cases r with
    | some _ =>
      obtain ⟨t', hinv, hroot, hl, hp⟩ := hres
      exact wp_pure ⟨t', hinv, hroot, hp, .inl ⟨rfl, hl, by omega⟩⟩
    | none =>
      obtain ⟨t', hinv, hext, hpage, hlen⟩ := hres
      rw [show pageCount oldsz + (pageCount newsz - pageCount oldsz) = pageCount newsz by omega] at hext
      by_cases h0 : newsz = 0
      · have hle : oldsz = 0 := by omega
        subst h0 hle
        refine wp_pure ⟨t', hinv, hext.root, hpage, .inl ⟨if_pos rfl, ?_, by omega⟩⟩
        funext u
        exact hext.same u (by omega)
      · exact wp_pure ⟨t', hinv, hext.root, hpage, .inr (.inr ⟨if_neg h0, h0, by omega, by omega, hext⟩)⟩

end TableInv

end Xv6
