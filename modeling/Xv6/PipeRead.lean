import Mathlib.Algebra.Order.Interval.Finset.SuccPred
import Mathlib.Data.Nat.SuccPred
import Mathlib.Order.Interval.Finset.Nat
import Xv6.AddressSpaces
import Xv6.PipeFifo

/-! `piperead` with the buffer it fills: the bytes leave the pipe for user pages that may be
missing, read-only, or copy-on-write with no page left to copy them to. -/

namespace Xv6

open ActionRun Function StateProg

section Model

variable (L : Layout)

/-- The loop of `piperead` that copies bytes out, at offset `i` and with `k` bytes to go. -/
def pipereadLoop (pagetable addr : Nat) : Nat → Nat → Pipe → Kernel (Pipe × Nat)
  | 0, i, pi => pure (pi, i)
  | k + 1, i, pi =>
    if pi.empty then pure (pi, i)
    else do
      let ch := pi.head
      let pi := { pi with nread := pi.nread + 1 }
      if (← copyout L pagetable ((addr + i) % 2 ^ 64) [ch]) = -1 then pure (pi, i)
      else pipereadLoop pagetable addr k (i + 1) pi

inductive ReadResult where
  | asleep
  | returned (pi : Pipe) (r : Int)

/-- `piperead` from one taking of `pi->lock` to the next `sleep` or to the return. -/
def piperead (killed : Bool) (pagetable addr : Nat) (n : Int) (pi : Pipe) : Kernel ReadResult :=
  if pi.empty ∧ pi.writeopen then pure (if killed then .returned pi (-1) else .asleep)
  else do
    let (pi', i) ← pipereadLoop L pagetable addr n.toNat 0 pi
    pure (.returned pi' i)

end Model

variable {L : Layout} {m m' : PhysMem} {env : Env} {t t' : Table} {v va q : Nat}

def Table.CopiedShared (t : Table) (m : PhysMem) (v : Nat) : Prop :=
  (t.leaf v).mayWrite = true ∧ (t.leaf v).has PTE_W = false ∧
    1 < (m.counter (pa2cowIndex (pte2pa (t.leaf v)))).toNat

instance (t : Table) (m : PhysMem) : DecidablePred (t.CopiedShared m) := fun _ =>
  inferInstanceAs (Decidable (_ ∧ _))

/-- The pages a write of `addr, …, addr + j - 1` takes off the free list, the last page
written to apart. -/
def Table.copies (t : Table) (m : PhysMem) (addr j : Nat) : Nat :=
  ((Finset.Ico (addr / PGSIZE) ((addr + j) / PGSIZE)).filter (t.CopiedShared m)).card

def Table.Room (t : Table) (m : PhysMem) (addr j : Nat) : Prop :=
  addr + j ≠ 0 ∧ (t.leaf ((addr + j) / PGSIZE)).mayWrite = true ∧
    ((t.leaf ((addr + j) / PGSIZE)).has PTE_W = true ∨ t.copies m addr j < m.freelist.length)

instance (t : Table) (m : PhysMem) (addr : Nat) : DecidablePred (t.Room m addr) := fun _ =>
  inferInstanceAs (Decidable (_ ∧ _))

def Table.Storable (t : Table) (m : PhysMem) (addr k : Nat) : Prop := ∀ j < k, t.Room m addr j

namespace UserMem

theorem load_writePage (um : UserMem) (va x : Nat) (b : UInt8)
    (h : um.mayWrite (va / PGSIZE) = true) :
    (um.writePage (va / PGSIZE) (va % PGSIZE) [b]).load x = if x = va then some b else um.load x := by
  rw [writePage, if_pos h, load, putPage]
  by_cases hpage : x / PGSIZE = va / PGSIZE
  · rw [hpage, update_self]
    cases hum : um (va / PGSIZE) with
    | none => simp [mayWrite, hum] at h
    | some page =>
      have hiff : x = va ↔ x % PGSIZE = va % PGSIZE := by
        rw [← Nat.div_add_mod x PGSIZE, ← Nat.div_add_mod va PGSIZE, hpage]
        simp
      by_cases hx : x = va
      · subst x
        simp [Buffer.write]
      · rw [if_neg hx, load, hpage, hum]
        simp only [Option.map_some, Option.some.injEq]
        apply Buffer.write_outside
        simp only [List.length_singleton]
        omega
  · rw [update_of_ne hpage, if_neg (fun he => hpage (by rw [he])), load]

end UserMem

namespace TableInv

theorem counter_of_mapsAt (h : TableInv L m env t) (hm : t.MapsAt v q) :
    (m.counter (pa2cowIndex q)).toNat = env.count q + 1 := by
  rw [h.alloc.count q (h.inRange (.inr ⟨v, hm⟩)), owners_uses (.inr ⟨v, hm⟩)]

theorem mapsAt_of_mayWrite (h : TableInv L m env t) (hv : (t.leaf v).mayWrite = true) :
    t.MapsAt v (pte2pa (t.leaf v)) :=
  ⟨h.user_lt (Pte.mayWrite_access hv).2, (Pte.mayWrite_access hv).1, rfl⟩

theorem copiedShared_iff (h : TableInv L m env t) : t.CopiedShared m v ↔
    (t.leaf v).mayWrite = true ∧ (t.leaf v).has PTE_W = false ∧
      0 < env.count (pte2pa (t.leaf v)) := by
  refine and_congr_right fun hmay => and_congr_right (fun _ => ?_)
  rw [h.counter_of_mapsAt (h.mapsAt_of_mayWrite hmay)]
  omega

end TableInv

structure Touched (t : Table) (m : PhysMem) (v : Nat) (t' : Table) (m' : PhysMem) : Prop where
  agrees : t.Agrees t'
  others : ∀ u, u ≠ v → t'.leaf u = t.leaf u
  write : (t'.leaf v).has PTE_W = true
  shared : ∀ u, u ≠ v → (t'.CopiedShared m' u ↔ t.CopiedShared m u)
  free : m'.freelist.length + (if t.CopiedShared m v then 1 else 0) = m.freelist.length

namespace Touched

theorem not_shared (h : Touched t m v t' m') : ¬ t'.CopiedShared m' v := fun hs => by
  rw [Table.CopiedShared, h.write] at hs
  cases hs.2.1

theorem copies_eq (h : Touched t m (va / PGSIZE) t' m') (j : Nat)
    (hlt : va / PGSIZE < (va + 1 + j) / PGSIZE) :
    t.copies m va (j + 1) =
      t'.copies m' (va + 1) j + if t.CopiedShared m (va / PGSIZE) then 1 else 0 := by
  have hcut : (Finset.Ico ((va + 1) / PGSIZE) ((va + 1 + j) / PGSIZE)).filter (t'.CopiedShared m') =
      (Finset.Ico (va / PGSIZE + 1) ((va + 1 + j) / PGSIZE)).filter (t.CopiedShared m) := by
    ext u
    simp only [Finset.mem_filter, Finset.mem_Ico]
    have hnext : (va + 1) / PGSIZE = va / PGSIZE ∨ (va + 1) / PGSIZE = va / PGSIZE + 1 := by
      simp only [PGSIZE]
      omega
    by_cases hu : u = va / PGSIZE
    · have hns := h.not_shared
      rw [← hu] at hns
      constructor
      · rintro ⟨-, hs⟩
        exact absurd hs hns
      · rintro ⟨hle, -⟩
        omega
    · rw [h.shared u hu]
      refine and_congr_left fun _ => ?_
      omega
  rw [Table.copies, Table.copies, hcut, Nat.add_comm j 1, ← Nat.add_assoc,
    ← Finset.insert_Ico_add_one_left_eq_Ico hlt, Finset.filter_insert]
  split
  · rw [Finset.card_insert_of_notMem (by simp)]
  · rfl

/-- What can be written behind a byte is the same before the byte is written and after. -/
theorem room_iff (h : Touched t m (va / PGSIZE) t' m') (h0 : t.Room m va 0) (j : Nat) :
    t'.Room m' (va + 1) j ↔ t.Room m va (j + 1) := by
  rw [Table.Room, Table.Room, h.agrees.mayWrite, show va + (j + 1) = va + 1 + j by omega]
  refine and_congr (by omega) (and_congr_right (fun _ => ?_))
  by_cases hpage : (va + 1 + j) / PGSIZE = va / PGSIZE
  · rw [hpage]
    refine iff_of_true (.inl h.write) (h0.2.2.imp id (fun hfree => ?_))
    rw [Table.copies, show va + (j + 1) = va + 1 + j by omega, hpage, Finset.Ico_self]
    exact (Nat.zero_le _).trans_lt hfree
  · have hlt : va / PGSIZE < (va + 1 + j) / PGSIZE := by
      have hle : va / PGSIZE ≤ (va + 1 + j) / PGSIZE := Nat.div_le_div_right (by omega)
      omega
    rw [h.others _ hpage, h.copies_eq j hlt, ← h.free]
    simp

end Touched

structure StoredByte (L : Layout) (m : PhysMem) (env : Env) (t : Table) (va : Nat) (b : UInt8)
    (m' : PhysMem) (t' : Table) : Prop where
  inv : TableInv L m' env t'
  touched : Touched t m (va / PGSIZE) t' m'
  eqOn : Set.EqOn m'.page m.page {x | 0 < env.count x}
  load : ∀ x, (t'.view m'.page).load x = if x = va then some b else (t.view m.page).load x

namespace TableInv

theorem touched_of_copied {p : PtePtr} {mem : Nat} (h : TableInv L m env t)
    (hmay : (t.leaf v).mayWrite = true) (hcow : (t.leaf v).has PTE_COW = true)
    (hc : Copied L m env t v p mem m') :
    Touched t m v (t.setLeaf v (cowEntry (t.leaf v) mem)) m' := by
  have hother : ∀ u, u ≠ v → (t.setLeaf v (cowEntry (t.leaf v) mem)).leaf u = t.leaf u :=
    fun u hu => Table.leaf_setLeaf_ne hu
  have hW : (t.leaf v).has PTE_W = false := by
    by_contra hw
    rw [(h.fits.leaf v).cow (by simpa using hw)] at hcow
    cases hcow
  refine ⟨hc.agrees hcow, hother, ?_, fun u hu => ?_, ?_⟩
  · rw [Table.leaf_setLeaf_self]
    exact hc.entry.2.1
  · rw [hc.inv.copiedShared_iff, h.copiedShared_iff, hother u hu]
  · rw [← hc.freelist_length h (h.mapsAt_of_mayWrite hmay)]
    simp only [h.copiedShared_iff, hmay, hW, true_and]

/-- The handler refuses a byte there is no room for, or makes its page writable. -/
theorem cowPageFaultHandler_room (h : TableInv L m env t) (va : Nat) :
    Wp (Xv6.cowPageFaultHandler L t.root va) (fun r m' =>
      r = -1 ∧ m' = m ∧ ¬ t.Room m va 0 ∨
      r = 0 ∧ t.Room m va 0 ∧ ∃ t', TableInv L m' env t' ∧ Touched t m (va / PGSIZE) t' m' ∧
        t'.view m'.page = t.view m.page ∧ Set.EqOn m'.page m.page {x | 0 < env.count x}) m := by
  obtain ⟨r, m₁, hrun, hr⟩ := h.cowPageFaultHandler_exact va
  refine ⟨r, m₁, hrun, ?_⟩
  have hcopies : t.copies m va 0 = 0 := by
    rw [Table.copies, Nat.add_zero, Finset.Ico_self]
    rfl
  rw [Table.Room, Nat.add_zero, hcopies]
  rcases hr with ⟨rfl, rfl, hbad⟩ | ⟨rfl, hzero, hlt, hv, hu, ⟨hw, rfl⟩ | ⟨hcow, p, mem, hp, hc⟩⟩
  · refine .inl ⟨rfl, rfl, fun hroom => ?_⟩
    obtain ⟨hne, hmay, hpage⟩ := hroom
    rcases hbad with hbad | hbad | hbad | hbad
    · exact hne hbad
    · rw [h.fits.leaf_of_ge hbad] at hmay
      cases hmay
    · rw [hbad] at hmay
      cases hmay
    · rw [hbad.1, hbad.2] at hpage
      simp at hpage
  · have hmay : (t.leaf (va / PGSIZE)).mayWrite = true := by
      rw [Pte.mayWrite, hv, hu, hw]
      rfl
    have hns : ¬ t.CopiedShared m₁ (va / PGSIZE) := fun hs => by
      rw [Table.CopiedShared, hw] at hs
      cases hs.2.1
    refine .inr ⟨rfl, ⟨hzero, hmay, .inl hw⟩, t, h, ⟨.refl t, fun _ _ => rfl, hw, fun _ _ => .rfl, ?_⟩,
      rfl, fun _ _ => rfl⟩
    rw [if_neg hns, Nat.add_zero]
  · have hmay : (t.leaf (va / PGSIZE)).mayWrite = true := by
      rw [Pte.mayWrite, hv, hu, hcow, Bool.or_true]
      rfl
    exact .inr ⟨rfl, ⟨hzero, hmay, .inr (List.length_pos_of_mem hc.free)⟩, _, hc.inv,
      h.touched_of_copied hmay hcow hc, hc.view h hp hv hu hcow, hc.eqOn h hp⟩

theorem copyout_byte_room (h : TableInv L m env t) (va : Nat) (b : UInt8) :
    Wp (copyout L t.root va [b]) (fun r m' => r = -1 ∧ m' = m ∧ ¬ t.Room m va 0 ∨
      r = 0 ∧ t.Room m va 0 ∧ ∃ t', StoredByte L m env t va b m' t') m := by
  rw [copyout, List.length_singleton, Xv6.copyoutLoop, if_neg (by simp)]
  refine (h.cowPageFaultHandler_room va).bind fun r m₁ hr => ?_
  rcases hr with ⟨rfl, rfl, hno⟩ | ⟨rfl, hroom, t', hinv, htouch, hview, heq⟩
  · rw [if_pos rfl]
    exact wp_pure (.inl ⟨rfl, rfl, hno⟩)
  · rw [if_neg (by decide), ← htouch.agrees.root]
    have hmay := (htouch.agrees.mayWrite (va / PGSIZE)).trans hroom.2.1
    obtain ⟨hv, hu⟩ := Pte.mayWrite_access hmay
    have haddr := hinv.walkaddr_eq (pgRoundDown va)
    rw [pgRoundDown_div, hv, hu] at haddr
    apply wp_bind
    refine ⟨_, m₁, haddr, ?_⟩
    have hmin : min (PGSIZE - va % PGSIZE) 1 = 1 := by
      simp only [PGSIZE]
      omega
    rw [sub_pgRoundDown, List.length_singleton, hmin]
    simp only [Bool.and_self, if_true, List.take_succ_cons, List.take_zero]
    apply wp_bind_modify
    obtain ⟨hinv₂, heq₂, hview₂⟩ := hinv.writePage hv hu htouch.write (va % PGSIZE) [b] rfl
    refine wp_pure (.inr ⟨rfl, hroom, t', hinv₂,
      ⟨htouch.agrees, htouch.others, htouch.write, htouch.shared, htouch.free⟩,
      fun x hx => by rw [heq₂ hx, heq hx], fun x => ?_⟩)
    rw [hview₂, hview]
    exact UserMem.load_writePage _ va x b (by rw [Table.view_mayWrite]; exact hroom.2.1)

end TableInv

structure Filled (L : Layout) (m : PhysMem) (env : Env) (t : Table) (addr : Nat)
    (bytes : List UInt8) (m' : PhysMem) : Prop where
  eqOn : Set.EqOn m'.page m.page {x | 0 < env.count x}
  table : ∃ t', TableInv L m' env t' ∧ t.Agrees t' ∧ ∀ x, (t'.view m'.page).load x =
    if addr ≤ x ∧ x < addr + bytes.length then bytes[x - addr]? else (t.view m.page).load x

theorem Filled.nil (h : TableInv L m env t) (addr : Nat) : Filled L m env t addr [] m :=
  ⟨fun _ _ => rfl, t, h, .refl t, fun x => by rw [List.length_nil, if_neg (by omega)]⟩

theorem Filled.cons {m₁ : PhysMem} {t₁ : Table} {addr : Nat} {b : UInt8} {bytes : List UInt8}
    (hb : StoredByte L m env t addr b m₁ t₁) (h : Filled L m₁ env t₁ (addr + 1) bytes m') :
    Filled L m env t addr (b :: bytes) m' := by
  obtain ⟨heq, t', hinv, hag, hload⟩ := h
  refine ⟨fun x hx => by rw [heq hx, hb.eqOn hx], t', hinv, hb.touched.agrees.trans hag, fun x => ?_⟩
  rw [hload, hb.load, List.length_cons]
  by_cases hx : x = addr
  · subst x
    rw [if_neg (by omega), if_pos rfl, if_pos (by omega), Nat.sub_self]
    rfl
  · rw [if_neg hx]
    by_cases hin : addr + 1 ≤ x ∧ x < addr + 1 + bytes.length
    · rw [if_pos hin, if_pos (by omega), show x - addr = x - (addr + 1) + 1 by omega,
        List.getElem?_cons_succ]
    · rw [if_neg hin, if_neg (by omega)]

/-- The buffer at `addr` as the pipe's machine sees it. -/
def Table.roomAt (t : Table) (m : PhysMem) (addr j : Nat) : Bool := decide (t.Room m addr j)

theorem Table.roomAt_iff {addr : Nat} (t : Table) (j : Nat) :
    t.roomAt m addr (0 + j) = true ↔ t.Room m (addr + 0) j := by
  rw [Nat.zero_add, roomAt, decide_eq_true_eq, Nat.add_zero]

theorem Table.storable_succ (k addr : Nat) : t.Storable m addr (k + 1) ↔
    t.Room m addr 0 ∧ ∀ j < k, t.Room m addr (j + 1) := by
  constructor
  · exact fun h => ⟨h 0 (by omega), fun j hj => h (j + 1) (by omega)⟩
  · rintro ⟨h0, h⟩ (_ | j) hj
    exacts [h0, h j (by omega)]

/-- The loop stops at the first byte that cannot be stored, and that byte is gone. It is the loop of
the pipe's machine for a buffer `dst` with room for just the bytes that can be stored. -/
theorem TableInv.pipereadLoop (dst : Nat → Bool) (k i addr : Nat) (pi : Pipe)
    (h : TableInv L m env t) (hlt : addr + i < 2 ^ 64) (hdst : ∀ j, dst (i + j) = true ↔ t.Room m (addr + i) j) :
    Wp (pipereadLoop L t.root addr k i pi) (fun r m' => ∃ d, r.2 = i + d ∧
      t.Storable m (addr + i) d ∧ Filled L m env t (addr + i) (pi.ring.take d) m' ∧
      (d = min k pi.count ∧ r.1.ring = pi.ring.drop d ∨
        d < min k pi.count ∧ ¬ t.Room m (addr + i) d ∧ r.1.ring = pi.ring.drop (d + 1)) ∧
      ∃ bs, PipeSys.copyLoop dst k i pi = (r.1, bs, r.2)) m := by
  induction k generalizing m t i pi with
  | zero =>
    refine wp_pure ⟨0, rfl, fun j hj => ?_, .nil h _, .inl ⟨by omega, rfl⟩, [], rfl⟩
    omega
  | succ k ih =>
    rw [Xv6.pipereadLoop]
    by_cases he : pi.empty = true
    · rw [if_pos he]
      have hz := Pipe.empty_iff.mp he
      refine wp_pure ⟨0, rfl, fun j hj => ?_, .nil h _, .inl ⟨by omega, rfl⟩, [], ?_⟩
      · omega
      · rw [PipeSys.copyLoop, if_pos he]
    · rw [if_neg he]
      have hz : pi.count ≠ 0 := fun hz => he (Pipe.empty_iff.mpr hz)
      have hpop := Pipe.ring_pop hz
      have hcount := Pipe.count_pop hz
      have hdst₀ := hdst 0
      rw [Nat.add_zero] at hdst₀
      rw [Nat.mod_eq_of_lt hlt]
      refine (h.copyout_byte_room (addr + i) pi.head).bind fun r m₁ hr => ?_
      rcases hr with ⟨rfl, rfl, hno⟩ | ⟨rfl, hroom, t₁, hb⟩
      · rw [if_pos rfl]
        refine wp_pure ⟨0, rfl, fun j hj => ?_, .nil h _, .inr ⟨by omega, hno, ?_⟩, [pi.head], ?_⟩
        · omega
        · rw [hpop]
          rfl
        · rw [PipeSys.copyLoop, if_neg he, if_neg (mt hdst₀.mp hno)]
      · rw [if_neg (by decide), ← hb.touched.agrees.root]
        have hva : addr + i < MAXVA := by
          by_contra hge
          have hmay := hroom.2.1
          rw [Nat.add_zero, h.fits.leaf_of_ge (by omega)] at hmay
          cases hmay
        have hshift (j : Nat) : t₁.Room m₁ (addr + (i + 1)) j ↔ t.Room m (addr + i) (j + 1) :=
          hb.touched.room_iff hroom j
        refine (ih (i + 1) _ hb.inv (by simp only [MAXVA] at hva; omega) fun j => ?_).mono fun r m' hr => ?_
        · rw [hshift, ← hdst, Nat.add_right_comm, Nat.add_assoc]
        obtain ⟨d, hr, hst, hfill, hend, bs, hcopy⟩ := hr
        refine ⟨d + 1, by omega, ?_, ?_, ?_, pi.head :: bs, ?_⟩
        · exact (Table.storable_succ d (addr + i)).mpr ⟨hroom, fun j hj => (hshift j).mp (hst j hj)⟩
        · rw [hpop]
          exact .cons hb hfill
        · rw [hpop, List.drop_succ_cons, List.drop_succ_cons]
          rcases hend with ⟨hd, hring⟩ | ⟨hd, hno, hring⟩
          · exact .inl ⟨by omega, hring⟩
          · exact .inr ⟨by omega, mt (hshift d).mpr hno, hring⟩
        · rw [PipeSys.copyLoop, if_neg he, if_pos (hdst₀.mpr hroom), hcopy]

def Consumes (L : Layout) (m : PhysMem) (env : Env) (t : Table) (addr : Nat) (pi : Pipe)
    (res : ReadResult) (m' : PhysMem) : Prop :=
  ∀ pi' (i : Nat), res = .returned pi' i → i ≤ pi.count ∧ pi'.ring = pi.ring.drop i ∧
    Filled L m env t addr (pi.ring.take i) m'

/-- `piperead` consumes what it delivers exactly if it can store every byte it comes to: when a
`copyout` fails, the byte it was called for has left the pipe. -/
theorem piperead_consumes_iff (h : TableInv L m env t) (killed : Bool) {addr : Nat}
    (haddr : addr < 2 ^ 64) (n : Int) (pi : Pipe) :
    Wp (piperead L killed t.root addr n pi) (fun res m' =>
      Consumes L m env t addr pi res m' ↔ t.Storable m addr (min n.toNat pi.count)) m := by
  rw [piperead]
  by_cases hwait : pi.empty = true ∧ pi.writeopen = true
  · rw [if_pos hwait]
    have hz := Pipe.empty_iff.mp hwait.1
    refine wp_pure (iff_of_true (fun pi' i he => ?_) (fun j hj => by omega))
    cases killed
    · cases he
    · cases he
  · rw [if_neg hwait]
    refine (h.pipereadLoop (t.roomAt m addr) n.toNat 0 addr pi haddr t.roomAt_iff).bind fun r m' hr => ?_
    obtain ⟨d, hr, hst, hfill, hend, -⟩ := hr
    rw [Nat.zero_add] at hr
    have hlen : pi.ring.length = pi.count := by simp [Pipe.ring]
    refine wp_pure ?_
    rcases hend with ⟨hd, hring⟩ | ⟨hd, hno, hring⟩
    · refine iff_of_true (fun pi' i he => ?_) (hd ▸ hst)
      cases he
      rw [hr]
      exact ⟨by omega, hring, hfill⟩
    · refine iff_of_false (fun hc => ?_) fun hs => hno (hs d hd)
      have hgone := (hc r.1 r.2 rfl).2.1
      rw [hring, hr] at hgone
      have := congrArg List.length hgone
      rw [List.length_drop, List.length_drop] at this
      omega

def onePipe : Pipe := ⟨fun _ => 97, 0, 1, true, true⟩

theorem piperead_consumes_onePipe : ∃ (m : PhysMem) (env : Env) (t : Table), t.Storable m 8 1 ∧
    Wp (piperead smallKernel false t.root 8 1 onePipe) (fun res m' =>
      Consumes smallKernel m env t 8 onePipe res m' ↔ t.Storable m 8 (min 1 onePipe.count)) m := by
  obtain ⟨m, env, t, h, -, hw, hmay⟩ := exists_writable_zero
  refine ⟨m, env, t, fun j hj => ?_, piperead_consumes_iff h false (by decide) 1 onePipe⟩
  obtain rfl : j = 0 := by omega
  exact ⟨by decide, hmay, .inl hw⟩

/-- The buffer is the last byte of the address space: the read returns 0 and the pipe is empty. -/
theorem piperead_loses_byte : ∃ (m : PhysMem) (env : Env) (t : Table) (pi : Pipe),
    TableInv smallKernel m env t ∧
    piperead smallKernel false t.root (2 ^ 64 - 1) 1 onePipe m = .ok (.returned pi 0, m) ∧
    onePipe.ring = [97] ∧ pi.ring = [] := by
  obtain ⟨m, env, t, h, -⟩ := exists_writable_zero
  exact ⟨m, env, t, { onePipe with nread := 1 }, h, rfl, by decide, by decide⟩

section Steps

variable {P : Type*} [DecidableEq P]

/-- In every state of every run, `piperead` is a step of the machine for a buffer that ends where
`copyout` fails. It stores as many bytes as there are, are asked for and have room, and they are
those written next after the bytes already read. -/
theorem piperead_delivers_next {data : Nat → UInt8} {as : List (PipeAct P)} {s : PipeSys P}
    (hrun : run pipeStep (.alloc data) as = .ok s) (h : TableInv L m env t) (p : P) {addr : Nat}
    (haddr : addr < 2 ^ 64) (n : Int) :
    Wp (piperead L (s.killed p) t.root addr n s.pi) (fun res m' =>
      let s' := (s.acquire p (.reading ⟨n, t.roomAt m addr⟩)).advance p
      match res with
      | .asleep => s'.pc p = .emptying ⟨n, t.roomAt m addr⟩
      | .returned pi r => s'.pi = pi ∧ s'.pc p = .outside r ∧
        Filled L m env t addr (((s.put.map Prod.snd).drop s.got.length).take r.toNat) m' ∧
        (r = -1 ∧ s.killed p = true ∨ 0 ≤ r ∧ t.Storable m addr r.toNat ∧
          (r = min n.toNat s.pi.count ∨ r < min n.toNat s.pi.count ∧ ¬ t.Room m addr r.toNat))) m := by
  rw [← (PipeSys.queue_run hrun).queue, List.drop_left, piperead]
  by_cases hwait : s.pi.empty = true ∧ s.pi.writeopen = true
  · rw [if_pos hwait]
    refine wp_pure ?_
    cases hk : s.killed p with
    | false => simp [PipeSys.advance, PipeSys.acquire, PipeSys.set, hwait, hk]
    | true => simp [PipeSys.advance, PipeSys.acquire, PipeSys.release, PipeSys.set, hwait, hk, Filled.nil h]
  · rw [if_neg hwait]
    obtain ⟨r, m', hloop, d, hd, hst, hfill, hend, bs, hcopy⟩ :=
      h.pipereadLoop (t.roomAt m addr) n.toNat 0 addr s.pi haddr t.roomAt_iff
    rw [Nat.zero_add] at hd
    refine wp_bind ⟨r, m', hloop, wp_pure ?_⟩
    simp only [PipeSys.advance, PipeSys.acquire, PipeSys.set, update_self, hwait, if_false,
      PipeSys.readDone, hcopy]
    rw [hd, Int.toNat_natCast]
    refine ⟨trivial, by rw [← hd]; exact update_self .., hfill, .inr ⟨Int.natCast_nonneg d, hst, ?_⟩⟩
    rcases hend with ⟨rfl, -⟩ | ⟨hlt, hno, -⟩
    · exact .inl (by omega)
    · exact .inr ⟨by omega, hno⟩

def ReadResult.value : ReadResult → Option Int
  | .asleep => none
  | .returned _ r => some r

/-- Two bytes are in the pipe, and the buffer is the last byte of the process: the first of them is
delivered. -/
theorem piperead_delivers_next_byte : ∃ (m m' : PhysMem) (env : Env) (t : Table) (s : PipeSys Bool) (pi : Pipe),
    run pipeStep (.alloc fun _ => 0) (readOne.take 6) = .ok s ∧ s.put.map Prod.snd = [7, 8] ∧
    piperead smallKernel (s.killed true) t.root 4095 2 s.pi m = .ok (.returned pi 1, m') ∧
    ((s.acquire true (.reading ⟨2, t.roomAt m 4095⟩)).advance true).pi = pi ∧
    Filled smallKernel m env t 4095 [7] m' ∧ ¬ t.Room m 4095 1 := by
  obtain ⟨k, hg, hstate, root, hroot, hread⟩ := Good.exists_small (P := fun k =>
    (k.proc 0).state = .runnable ∧ ∃ root ∈ (k.proc 0).pagetable, Ends (fun s : PipeSys Bool =>
      s.put.map Prod.snd = [7, 8] ∧ s.got = [] ∧ s.pi.count = 2 ∧
      Ends (fun x => x.1.value = some 1) (fun _ => False)
        (piperead smallKernel (s.killed true) root 4095 2 s.pi k.mem)) (fun _ => False)
      (run pipeStep (.alloc fun _ => 0) (readOne.take 6))) [] (by simp) (by decide +kernel)
  obtain ⟨σ, t, hp, ht⟩ := hg.exists_table hstate
  cases (hp.holds ht).1.symm.trans hroot
  obtain ⟨s, hrun, hput, hgot, hcount, hread⟩ := hread.exists_ok
  obtain ⟨⟨res, m'⟩, hread, hres⟩ := hread.exists_ok
  have hnext := (piperead_delivers_next hrun (hp.tableInv ht) true (by decide) 2).ok hread
  cases res with
  | asleep => cases hres
  | returned pi r =>
    cases hres
    obtain ⟨hpi, -, hfill, ⟨hneg, -⟩ | ⟨-, -, hall | ⟨-, hno⟩⟩⟩ := hnext
    · cases hneg
    · rw [hcount] at hall
      cases hall
    · rw [hput, hgot] at hfill
      exact ⟨k.mem, m', _, t, s, pi, hrun, hput, hread, hpi, hfill, hno⟩

end Steps

end Xv6
