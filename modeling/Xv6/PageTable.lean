import Xv6.Vm

/-! The shape of a page table in memory. A `Table` names the pages at its three levels
and its leaf entries, by virtual page number; `Table.Rep` says that memory holds it. -/

namespace Xv6

open Function StateProg

structure Table where
  root : Nat
  mid : Nat → Option Nat
  bot : Nat → Option Nat
  leaf : Nat → Pte

def tableEntry : Option Nat → Pte
  | none => 0
  | some q => pa2pte q ||| PTE_V

namespace Table

def Has (t : Table) (q : Nat) : Prop :=
  q = t.root ∨ (∃ i, t.mid i = some q) ∨ ∃ w, t.bot w = some q

structure Rep (page : Nat → Buffer) (t : Table) : Prop where
  top : ∀ i < 512, pteAt (page t.root) i = tableEntry (t.mid i)
  mid : ∀ i q, t.mid i = some q → ∀ j < 512, pteAt (page q) j = tableEntry (t.bot (i * 512 + j))
  bot : ∀ w q, t.bot w = some q → ∀ k < 512, pteAt (page q) k = t.leaf (w * 512 + k)
  mid_lt : ∀ i q, t.mid i = some q → i < 512
  bot_mid : ∀ w q, t.bot w = some q → ∃ p, t.mid (w / 512) = some p
  leaf_bot : ∀ v, t.bot (v / 512) = none → t.leaf v = 0
  addr : ∀ q, t.Has q → PageAddr q
  root_mid : ∀ i, t.mid i ≠ some t.root
  root_bot : ∀ w, t.bot w ≠ some t.root
  mid_bot : ∀ i w q, t.mid i = some q → t.bot w ≠ some q
  mid_inj : ∀ i j q, t.mid i = some q → t.mid j = some q → i = j
  bot_inj : ∀ i j q, t.bot i = some q → t.bot j = some q → i = j

def setLeaf (t : Table) (v : Nat) (pte : Pte) : Table :=
  { t with leaf := update t.leaf v pte }

def setMid (t : Table) (i q : Nat) : Table := { t with mid := update t.mid i (some q) }

def setBot (t : Table) (w q : Nat) : Table := { t with bot := update t.bot w (some q) }

def ptr (t : Table) (v : Nat) : Option PtePtr := (t.bot (v / 512)).map fun q => ⟨q, v % 512⟩

end Table

theorem pteAt_setPteAt_self (b : Buffer) (i : Nat) (pte : Pte) :
    pteAt (setPteAt b i pte) i = pte := by
  rw [pteAt, setPteAt, Buffer.getLE_setLE, Nat.mod_eq_of_lt]
  · simp
  · exact pte.isLt

theorem pteAt_setPteAt_ne (b : Buffer) {i j : Nat} (pte : Pte) (h : j ≠ i) :
    pteAt (setPteAt b i pte) j = pteAt b j := by
  rw [pteAt, setPteAt, Buffer.getLE_setLE_disjoint (by omega), pteAt]

theorem pteAt_zero (i : Nat) : pteAt (fun _ => 0) i = 0 := by
  have hz : ∀ k off, Buffer.getLE (fun _ => 0) off k = 0 := by
    intro k
    induction k with
    | zero => intro off; rfl
    | succ k ih =>
      intro off
      simp [Buffer.getLE, ih]
  rw [pteAt, hz]
  rfl

theorem tableEntry_some {q : Nat} (hq : PageAddr q) : (tableEntry (some q)).has PTE_V = true ∧
    pte2pa (tableEntry (some q)) = q ∧ (tableEntry (some q)).has (PTE_R ||| PTE_W ||| PTE_X) = false := by
  have hbit : ∀ i, i < 10 → (tableEntry (some q)).getLsbD i = decide (i = 0) := by
    intro i hi
    rw [tableEntry, BitVec.getLsbD_or, pa2pte_low q hi]
    have hall : ∀ i : Fin 10, (PTE_V : Pte).getLsbD i.val = decide (i.val = 0) := by decide
    simp only [Bool.false_or, hall ⟨i, hi⟩]
  refine ⟨?_, ?_, ?_⟩
  · rw [Pte.has_V, hbit 0 (by decide)]
    rfl
  · rw [← pte2pa_pa2pte hq]
    apply pte2pa_congr
    intro i hi
    rw [tableEntry, BitVec.getLsbD_or, pte2pa_pa2pte hq, getLsbD_of_lt (x := PTE_V) (by decide) hi,
      Bool.or_false]
  · rw [Pte.has_RWX, hbit 1 (by decide), hbit 2 (by decide), hbit 3 (by decide)]
    rfl

theorem tableEntry_none : (tableEntry none).has PTE_V = false := by decide

namespace Table.Rep

variable {t : Table} {page page' : Nat → Buffer} {q : Nat}

theorem congr (h : t.Rep page) (he : ∀ q, t.Has q → page' q = page q) : t.Rep page' where
  top := by rw [he t.root (.inl rfl)]; exact h.top
  mid i q hq := by rw [he q (.inr (.inl ⟨i, hq⟩))]; exact h.mid i q hq
  bot w q hq := by rw [he q (.inr (.inr ⟨w, hq⟩))]; exact h.bot w q hq
  mid_lt := h.mid_lt
  bot_mid := h.bot_mid
  leaf_bot := h.leaf_bot
  addr := h.addr
  root_mid := h.root_mid
  root_bot := h.root_bot
  mid_bot := h.mid_bot
  mid_inj := h.mid_inj
  bot_inj := h.bot_inj

theorem setLeaf (h : t.Rep page) {v : Nat} (hq : t.bot (v / 512) = some q) (pte : Pte) :
    (t.setLeaf v pte).Rep (update page q (setPteAt (page q) (v % 512) pte)) where
  top := by
    have hne : t.root ≠ q := fun he => h.root_bot _ (he ▸ hq)
    simpa only [Table.setLeaf, update_of_ne hne] using h.top
  mid i p hp := by
    have hne : p ≠ q := fun he => h.mid_bot i _ p hp (he ▸ hq)
    simpa only [Table.setLeaf, update_of_ne hne] using h.mid i p hp
  bot w p hp k hk := by
    by_cases hw : w = v / 512
    · subst w
      have hpq : p = q := by
        have hh : some p = some q := hp.symm.trans hq
        exact Option.some.inj hh
      subst p
      by_cases hkv : k = v % 512
      · subst k
        have hv : v / 512 * 512 + v % 512 = v := by omega
        simp only [Table.setLeaf, hv, update_self, pteAt_setPteAt_self]
      · have hv : v / 512 * 512 + k ≠ v := by omega
        simp only [Table.setLeaf, update_self, update_of_ne hv,
          pteAt_setPteAt_ne _ _ hkv]
        exact h.bot _ q hq k hk
    · have hpq : p ≠ q := fun he => hw (h.bot_inj w _ q (he ▸ hp) hq)
      have hv : w * 512 + k ≠ v := by omega
      simp only [Table.setLeaf, update_of_ne hpq, update_of_ne hv]
      exact h.bot w p hp k hk
  mid_lt := h.mid_lt
  bot_mid := h.bot_mid
  leaf_bot u hu := by
    have hne : u ≠ v := by
      rintro rfl
      have hh : some q = none := hq.symm.trans hu
      cases hh
    simp only [Table.setLeaf, update_of_ne hne]
    exact h.leaf_bot u hu
  addr := h.addr
  root_mid := h.root_mid
  root_bot := h.root_bot
  mid_bot := h.mid_bot
  mid_inj := h.mid_inj
  bot_inj := h.bot_inj

theorem setMid (h : t.Rep page) {i : Nat} (hi : i < 512) (hnone : t.mid i = none) (hq : ¬ t.Has q)
    (ha : PageAddr q) :
    (t.setMid i q).Rep (update (update page q (fun _ => 0)) t.root
      (setPteAt (page t.root) i (pa2pte q ||| PTE_V))) := by
  have hroot : q ≠ t.root := fun he => hq (.inl he)
  have hmid : ∀ j p, t.mid j = some p → p ≠ q ∧ p ≠ t.root := by
    intro j p hp
    exact ⟨fun he => hq (.inr (.inl ⟨j, he ▸ hp⟩)), fun he => h.root_mid j (he ▸ hp)⟩
  have hbot : ∀ w p, t.bot w = some p → p ≠ q ∧ p ≠ t.root := by
    intro w p hp
    exact ⟨fun he => hq (.inr (.inr ⟨w, he ▸ hp⟩)), fun he => h.root_bot w (he ▸ hp)⟩
  have hset : ∀ j p, (t.setMid i q).mid j = some p → (j = i ∧ p = q) ∨ t.mid j = some p := by
    intro j p hp
    by_cases he : j = i
    · subst j
      simp only [Table.setMid, update_self, Option.some.injEq] at hp
      exact .inl ⟨rfl, hp.symm⟩
    · simp only [Table.setMid, update_of_ne he] at hp
      exact .inr hp
  have hempty : ∀ j, t.bot (i * 512 + j) = none ∨ 512 ≤ j := by
    intro j
    by_cases hj : j < 512
    · left
      cases hb : t.bot (i * 512 + j) with
      | none => rfl
      | some p =>
        obtain ⟨r, hr⟩ := h.bot_mid _ p hb
        rw [show (i * 512 + j) / 512 = i by omega, hnone] at hr
        cases hr
    · exact .inr (by omega)
  constructor
  · intro j hj
    rw [show (t.setMid i q).root = t.root from rfl, update_self]
    by_cases he : j = i
    · subst j
      simp [Table.setMid, pteAt_setPteAt_self, tableEntry]
    · rw [pteAt_setPteAt_ne _ _ he]
      simpa only [Table.setMid, update_of_ne he] using h.top j hj
  · intro j p hp k hk
    rcases hset j p hp with ⟨rfl, rfl⟩ | hp
    · rw [update_of_ne hroot, update_self, pteAt_zero]
      have hb : (t.setMid j p).bot (j * 512 + k) = none := by
        rcases hempty k with hh | hh
        · exact hh
        · omega
      rw [hb]
      rfl
    · rw [update_of_ne (hmid j p hp).2, update_of_ne (hmid j p hp).1]
      exact h.mid j p hp k hk
  · intro w p hp k hk
    rw [update_of_ne (hbot w p hp).2, update_of_ne (hbot w p hp).1]
    exact h.bot w p hp k hk
  · intro j p hp
    rcases hset j p hp with ⟨rfl, _⟩ | hp
    · exact hi
    · exact h.mid_lt j p hp
  · intro w p hp
    by_cases he : w / 512 = i
    · exact ⟨q, by simp [Table.setMid, he]⟩
    · obtain ⟨r, hr⟩ := h.bot_mid w p hp
      exact ⟨r, by simpa [Table.setMid, update_of_ne he] using hr⟩
  · exact h.leaf_bot
  · rintro p (hp | ⟨j, hp⟩ | hp)
    · exact h.addr p (.inl hp)
    · rcases hset j p hp with ⟨_, rfl⟩ | hp
      · exact ha
      · exact h.addr p (.inr (.inl ⟨j, hp⟩))
    · exact h.addr p (.inr (.inr hp))
  · intro j hj
    rcases hset j _ hj with ⟨_, he⟩ | hj
    · exact hroot he.symm
    · exact h.root_mid j hj
  · exact h.root_bot
  · intro j w p hp
    rcases hset j p hp with ⟨_, rfl⟩ | hp
    · exact fun hw => (hbot w p hw).1 rfl
    · exact h.mid_bot j w p hp
  · intro j k p hj hk
    rcases hset j p hj with ⟨hji, hpq⟩ | hj'
    · rcases hset k p hk with ⟨hki, _⟩ | hk'
      · rw [hji, hki]
      · exact absurd hpq (hmid k p hk').1
    · rcases hset k p hk with ⟨_, hpq⟩ | hk'
      · exact absurd hpq (hmid j p hj').1
      · exact h.mid_inj j k p hj' hk'
  · exact h.bot_inj

theorem setBot (h : t.Rep page) {w p : Nat} (hp : t.mid (w / 512) = some p) (hnone : t.bot w = none)
    (hq : ¬ t.Has q) (ha : PageAddr q) :
    (t.setBot w q).Rep (update (update page q (fun _ => 0)) p
      (setPteAt (page p) (w % 512) (pa2pte q ||| PTE_V))) := by
  have hpq : q ≠ p := fun he => hq (.inr (.inl ⟨_, he ▸ hp⟩))
  have hroot : t.root ≠ q ∧ t.root ≠ p :=
    ⟨fun he => hq (.inl he.symm), fun he => h.root_mid _ (he ▸ hp)⟩
  have hmid : ∀ i r, t.mid i = some r → r ≠ q := by
    intro i r hr he
    exact hq (.inr (.inl ⟨i, he ▸ hr⟩))
  have hbot : ∀ u r, t.bot u = some r → r ≠ q ∧ r ≠ p := by
    intro u r hr
    exact ⟨fun he => hq (.inr (.inr ⟨u, he ▸ hr⟩)), fun he => h.mid_bot _ u p hp (he ▸ hr)⟩
  have hset : ∀ u r, (t.setBot w q).bot u = some r → (u = w ∧ r = q) ∨ t.bot u = some r := by
    intro u r hr
    by_cases he : u = w
    · subst u
      simp only [Table.setBot, update_self, Option.some.injEq] at hr
      exact .inl ⟨rfl, hr.symm⟩
    · simp only [Table.setBot, update_of_ne he] at hr
      exact .inr hr
  constructor
  · intro i hi
    rw [show (t.setBot w q).root = t.root from rfl, update_of_ne hroot.2,
      update_of_ne hroot.1]
    exact h.top i hi
  · intro i r hr j hj
    by_cases hrp : r = p
    · subst r
      have hi : i = w / 512 := h.mid_inj i _ p hr hp
      rw [update_self]
      by_cases hjw : j = w % 512
      · have hw : i * 512 + j = w := by omega
        rw [hw, hjw, pteAt_setPteAt_self]
        simp [Table.setBot, tableEntry]
      · have hw : i * 512 + j ≠ w := by omega
        rw [pteAt_setPteAt_ne _ _ hjw, h.mid i p hr j hj]
        simp [Table.setBot, update_of_ne hw]
    · have hi : i ≠ w / 512 := by
        rintro rfl
        have hh : some r = some p := hr.symm.trans hp
        exact hrp (Option.some.inj hh)
      have hw : i * 512 + j ≠ w := by omega
      rw [update_of_ne hrp, update_of_ne (hmid i r hr), h.mid i r hr j hj]
      simp [Table.setBot, update_of_ne hw]
  · intro u r hr k hk
    rcases hset u r hr with ⟨rfl, rfl⟩ | hr
    · rw [update_of_ne hpq, update_self, pteAt_zero]
      have hleaf := h.leaf_bot (u * 512 + k) (by rw [show (u * 512 + k) / 512 = u by omega]; exact hnone)
      exact hleaf.symm
    · rw [update_of_ne (hbot u r hr).2, update_of_ne (hbot u r hr).1]
      exact h.bot u r hr k hk
  · exact h.mid_lt
  · intro u r hr
    rcases hset u r hr with ⟨rfl, _⟩ | hr
    · exact ⟨p, hp⟩
    · exact h.bot_mid u r hr
  · intro v hv
    by_cases he : v / 512 = w
    · simp [Table.setBot, he] at hv
    · simp only [Table.setBot, update_of_ne he] at hv
      exact h.leaf_bot v hv
  · rintro r (hr | hr | ⟨u, hr⟩)
    · exact h.addr r (.inl hr)
    · exact h.addr r (.inr (.inl hr))
    · rcases hset u r hr with ⟨_, rfl⟩ | hr
      · exact ha
      · exact h.addr r (.inr (.inr ⟨u, hr⟩))
  · exact h.root_mid
  · intro u hu
    rcases hset u _ hu with ⟨_, he⟩ | hu
    · exact hroot.1 he
    · exact h.root_bot u hu
  · intro i u r hr hu
    rcases hset u r hu with ⟨_, rfl⟩ | hu
    · exact hmid i r hr rfl
    · exact h.mid_bot i u r hr hu
  · exact h.mid_inj
  · intro u k r hu hk
    rcases hset u r hu with ⟨hui, hrq⟩ | hu'
    · rcases hset k r hk with ⟨hki, _⟩ | hk'
      · rw [hui, hki]
      · exact absurd hrq (hbot k r hk').1
    · rcases hset k r hk with ⟨_, hrq⟩ | hk'
      · exact absurd hrq (hbot u r hu').1
      · exact h.bot_inj u k r hu' hk'

end Table.Rep

theorem Table.has_setMid {t : Table} {i q x : Nat} (hnone : t.mid i = none) :
    (t.setMid i q).Has x ↔ t.Has x ∨ x = q := by
  constructor
  · rintro (hx | ⟨j, hx⟩ | hx)
    · exact .inl (.inl hx)
    · by_cases he : j = i
      · subst j
        simp only [Table.setMid, update_self, Option.some.injEq] at hx
        exact .inr hx.symm
      · simp only [Table.setMid, update_of_ne he] at hx
        exact .inl (.inr (.inl ⟨j, hx⟩))
    · exact .inl (.inr (.inr hx))
  · rintro ((hx | ⟨j, hx⟩ | hx) | rfl)
    · exact .inl hx
    · have he : j ≠ i := by
        rintro rfl
        rw [hnone] at hx
        cases hx
      exact .inr (.inl ⟨j, by simpa [Table.setMid, update_of_ne he] using hx⟩)
    · exact .inr (.inr hx)
    · exact .inr (.inl ⟨i, by simp [Table.setMid]⟩)

theorem Table.has_setBot {t : Table} {w q x : Nat} (hnone : t.bot w = none) :
    (t.setBot w q).Has x ↔ t.Has x ∨ x = q := by
  constructor
  · rintro (hx | hx | ⟨u, hx⟩)
    · exact .inl (.inl hx)
    · exact .inl (.inr (.inl hx))
    · by_cases he : u = w
      · subst u
        simp only [Table.setBot, update_self, Option.some.injEq] at hx
        exact .inr hx.symm
      · simp only [Table.setBot, update_of_ne he] at hx
        exact .inl (.inr (.inr ⟨u, hx⟩))
  · rintro ((hx | hx | ⟨u, hx⟩) | rfl)
    · exact .inl hx
    · exact .inr (.inl hx)
    · have he : u ≠ w := by
        rintro rfl
        rw [hnone] at hx
        cases hx
      exact .inr (.inr ⟨u, by simpa [Table.setBot, update_of_ne he] using hx⟩)
    · exact .inr (.inr ⟨w, by simp [Table.setBot]⟩)

end Xv6
