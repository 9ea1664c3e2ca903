import Mathlib.Data.List.Forall2
import Xv6.ExecSegments

/-! The argument strings and their addresses on the stack of a program that `exec` starts. -/

namespace Xv6

open Function StateProg

def below16 (sp n : Nat) : Nat := sp - n - (sp - n) % 16

def argSlots : List (List UInt8) → Nat → List Nat
  | [], _ => []
  | arg :: rest, sp => below16 sp (arg.length + 1) :: argSlots rest (below16 sp (arg.length + 1))

def argBottom : List (List UInt8) → Nat → Nat
  | [], sp => sp
  | arg :: rest, sp => argBottom rest (below16 sp (arg.length + 1))

def putArgs (b : Buffer) (base : Nat) : List (List UInt8) → Nat → Buffer
  | [], _ => b
  | arg :: rest, sp =>
    putArgs (b.write (below16 sp (arg.length + 1) - base) (arg ++ [0])) base rest
      (below16 sp (arg.length + 1))

def roundUp16 (n : Nat) : Nat := (n + 15) / 16 * 16

/-- The bytes that the strings and the array of pointers take up, each rounded up to 16. -/
def stackBytes (argv : List (List UInt8)) : Nat :=
  (argv.map (fun arg => roundUp16 (arg.length + 1))).sum + roundUp16 ((argv.length + 1) * 8)

structure StringAt (page : Buffer) (base low : Nat) (arg : List UInt8) (ptr : Nat) : Prop where
  low : low ≤ ptr
  high : ptr + (arg.length + 1) ≤ base + PGSIZE
  bytes : page.read (ptr - base) (arg.length + 1) = arg ++ [0]

structure ArgStack (page : Buffer) (base : Nat) (argv : List (List UInt8)) (sp : Nat) (ustack : List Nat) :
    Prop where
  aligned : sp % 16 = 0
  low : base ≤ sp
  high : sp < base + PGSIZE
  array : sp + 8 * (argv.length + 1) ≤ base + PGSIZE
  words : ∀ i ≤ argv.length, page.getLE (sp - base + 8 * i) 8 = (ustack ++ [0]).getD i 0
  strings : List.Forall₂ (StringAt page base (sp + 8 * (argv.length + 1))) argv ustack
  apart : (argv.zip ustack).Pairwise fun a b => b.2 + (b.1.length + 1) ≤ a.2

variable {b : Buffer} {base sp n x entry va low off i : Nat} {argv : List (List UInt8)}
  {bytes : List UInt8}

theorem below16_le (sp n : Nat) : below16 sp n + n ≤ sp ∨ below16 sp n = 0 := by
  unfold below16
  omega

theorem below16_aligned (sp n : Nat) : below16 sp n % 16 = 0 := by
  unfold below16
  omega

theorem below16_eq (h : sp % 16 = 0) (n : Nat) : below16 sp n = sp - roundUp16 n := by
  unfold below16 roundUp16
  omega

theorem argBottom_le (argv : List (List UInt8)) (sp : Nat) : argBottom argv sp ≤ sp := by
  induction argv generalizing sp with
  | nil => exact Nat.le_refl _
  | cons arg rest ih =>
    have hle := below16_le sp (arg.length + 1)
    have hrest := ih (below16 sp (arg.length + 1))
    rw [argBottom]
    omega

theorem argBottom_eq (h : sp % 16 = 0) :
    argBottom argv sp = sp - (argv.map (fun arg => roundUp16 (arg.length + 1))).sum ∧
      argBottom argv sp % 16 = 0 := by
  induction argv generalizing sp with
  | nil => exact ⟨rfl, h⟩
  | cons arg rest ih =>
    rw [argBottom, List.map_cons, List.sum_cons, ← Nat.sub_sub, ← below16_eq h]
    exact ih (below16_aligned _ _)

theorem stackBytes_eq (h : sp % 16 = 0) (argv : List (List UInt8)) :
    below16 (argBottom argv sp) ((argv.length + 1) * 8) = sp - stackBytes argv := by
  obtain ⟨hb, hal⟩ : argBottom argv sp = sp - (argv.map (fun arg => roundUp16 (arg.length + 1))).sum ∧
    argBottom argv sp % 16 = 0 := argBottom_eq h
  rw [below16_eq hal, hb, stackBytes, Nat.sub_sub]

theorem length_wordBytes (ws : List Nat) : (wordBytes ws).length = 8 * ws.length := by
  induction ws with
  | nil => rfl
  | cons w ws ih =>
    rw [wordBytes, List.flatMap_cons, List.length_append, List.length_cons]
    change _ + (wordBytes ws).length = _
    rw [ih, Buffer.length_read]
    omega

theorem getD_wordBytes (ws : List Nat) {j : Nat} (hi : i < ws.length) (hj : j < 8) :
    (wordBytes ws).getD (8 * i + j) 0 = Buffer.setLE (fun _ => 0) 0 (ws.getD i 0) 8 j := by
  induction ws generalizing i with
  | nil => exact absurd hi (Nat.not_lt_zero i)
  | cons w ws ih =>
    change ((Buffer.setLE (fun _ => 0) 0 w 8).read 0 8 ++ wordBytes ws).getD _ 0 = _
    have hlen : ((Buffer.setLE (fun _ => 0) 0 w 8).read 0 8).length = 8 := Buffer.length_read ..
    cases i with
    | zero =>
      rw [List.getD_append _ _ _ _ (by omega), List.getD_cons_zero, List.getD_eq_getElem _ _ (by omega),
        Buffer.getElem_read]
      congr 1
      omega
    | succ i =>
      rw [List.length_cons] at hi
      rw [List.getD_append_right _ _ _ _ (by omega), List.getD_cons_succ, hlen,
        show 8 * (i + 1) + j - 8 = 8 * i + j by omega]
      exact ih (by omega)

theorem getLE_wordBytes (ws : List Nat) (hi : i < ws.length) (hw : ws.getD i 0 < 2 ^ 64) :
    (b.write off (wordBytes ws)).getLE (off + 8 * i) 8 = ws.getD i 0 := by
  have hshift : (b.write off (wordBytes ws)).getLE (off + 8 * i) 8 =
      (Buffer.setLE (fun _ => 0) 0 (ws.getD i 0) 8).getLE 0 8 := by
    apply Buffer.getLE_shift
    intro j hj
    rw [Nat.zero_add, ← getD_wordBytes ws hi hj, Buffer.write, if_pos]
    · congr 1
      omega
    · rw [length_wordBytes]
      omega
  rw [hshift, Buffer.getLE_setLE]
  exact Nat.mod_eq_of_lt hw

theorem putArgs_above {o : Nat} (hbase : 0 < base) (hbot : base ≤ argBottom argv sp) (ho : sp - base ≤ o) :
    putArgs b base argv sp o = b o := by
  induction argv generalizing b sp with
  | nil => rfl
  | cons arg rest ih =>
    rw [argBottom] at hbot
    have hslot := argBottom_le rest (below16 sp (arg.length + 1))
    have hle := below16_le sp (arg.length + 1)
    rw [putArgs, ih hbot (by omega), Buffer.write_outside]
    rw [List.length_append, List.length_singleton]
    omega

theorem argSlots_below (hbase : 0 < base) (hbot : base ≤ argBottom argv sp) :
    ∀ a ∈ argv.zip (argSlots argv sp), a.2 + (a.1.length + 1) ≤ sp := by
  induction argv generalizing sp with
  | nil => exact fun a ha => by cases ha
  | cons arg rest ih =>
    intro a ha
    rw [argBottom] at hbot
    have hslot := argBottom_le rest (below16 sp (arg.length + 1))
    have hle := below16_le sp (arg.length + 1)
    rcases List.mem_cons.mp ha with rfl | ha
    · dsimp only
      omega
    · have hrest := ih hbot a ha
      omega

theorem argSlots_apart (hbase : 0 < base) (hbot : base ≤ argBottom argv sp) :
    (argv.zip (argSlots argv sp)).Pairwise (fun a b => b.2 + (b.1.length + 1) ≤ a.2) := by
  induction argv generalizing sp with
  | nil => exact List.Pairwise.nil
  | cons arg rest ih => exact List.pairwise_cons.mpr ⟨argSlots_below hbase hbot, ih hbot⟩

theorem putArgs_strings (hbase : 0 < base) (hlow : base ≤ low) (hbot : low ≤ argBottom argv sp)
    (hsp : sp ≤ base + PGSIZE) :
    List.Forall₂ (StringAt (putArgs b base argv sp) base low) argv (argSlots argv sp) := by
  induction argv generalizing b sp with
  | nil => exact List.Forall₂.nil
  | cons arg rest ih =>
    rw [argBottom] at hbot
    have hslot := argBottom_le rest (below16 sp (arg.length + 1))
    have hle := below16_le sp (arg.length + 1)
    refine List.Forall₂.cons ⟨by omega, by omega, ?_⟩ (ih hbot (by omega))
    have hkeep : (putArgs b base (arg :: rest) sp).read (below16 sp (arg.length + 1) - base) (arg.length + 1) =
        (b.write (below16 sp (arg.length + 1) - base) (arg ++ [0])).read
          (below16 sp (arg.length + 1) - base) (arg.length + 1) :=
      Buffer.read_congr fun o h1 _ => putArgs_above hbase (by omega) h1
    have hwrite := Buffer.read_write b (below16 sp (arg.length + 1) - base) (arg ++ [0])
    rw [List.length_append, List.length_singleton] at hwrite
    exact hkeep.trans hwrite

theorem length_argSlots (argv : List (List UInt8)) (sp : Nat) : (argSlots argv sp).length = argv.length := by
  induction argv generalizing sp with
  | nil => rfl
  | cons arg rest ih => rw [argSlots, List.length_cons, List.length_cons, ih]

theorem StringAt.write {page : Buffer} {low' ptr : Nat} {arg : List UInt8} (h : StringAt page base low arg ptr)
    (hlow : low' ≤ low) (hoff : off + bytes.length ≤ low - base) :
    StringAt (page.write off bytes) base low' arg ptr := by
  have hl := h.low
  refine ⟨hlow.trans h.low, h.high, ?_⟩
  rw [← h.bytes]
  exact Buffer.read_congr fun o h1 _ => Buffer.write_outside (.inr (by omega))

theorem argStack (hbase : 0 < base) (hsmall : base + PGSIZE < 2 ^ 64)
    (hsp : sp = below16 (argBottom argv (base + PGSIZE)) ((argv.length + 1) * 8)) (hfit : base ≤ sp) :
    ArgStack ((putArgs b base argv (base + PGSIZE)).write (sp - base)
        (wordBytes (argSlots argv (base + PGSIZE) ++ [0]))) base argv sp (argSlots argv (base + PGSIZE)) := by
  have hbot := argBottom_le argv (base + PGSIZE)
  have hle := below16_le (argBottom argv (base + PGSIZE)) ((argv.length + 1) * 8)
  have hstrings : List.Forall₂ (StringAt (putArgs b base argv (base + PGSIZE)) base
      (argBottom argv (base + PGSIZE))) argv (argSlots argv (base + PGSIZE)) :=
    putArgs_strings hbase (by omega) (Nat.le_refl _) (Nat.le_refl _)
  have hlen := length_argSlots argv (base + PGSIZE)
  refine ⟨hsp ▸ below16_aligned _ _, hfit, by omega, by omega, fun i hi => ?_, ?_,
    argSlots_apart hbase (by omega)⟩
  · apply getLE_wordBytes
    · rw [List.length_append, List.length_singleton, hlen]
      omega
    · by_cases hlt : i < argv.length
      · rw [List.getD_append _ _ _ _ (by omega)]
        have hh := (List.forall₂_iff_get.mp hstrings).2 i hlt (by omega)
        have hhigh := hh.high
        simp only [List.get_eq_getElem] at hhigh
        rw [List.getD_eq_getElem _ _ (by omega)]
        omega
      · rw [List.getD_append_right _ _ _ _ (by omega),
          show i - (argSlots argv (base + PGSIZE)).length = 0 by omega]
        decide
  · refine hstrings.imp fun arg ptr hs => hs.write (by omega) ?_
    rw [length_wordBytes, List.length_append, List.length_singleton, hlen]
    omega

variable {L : Layout} {m m' : PhysMem} {env : Env} {t : Table} {v sz : Nat} {um : UserMem}

structure Table.Writable (t : Table) (v : Nat) : Prop where
  valid : (t.leaf v).has PTE_V = true
  user : (t.leaf v).has PTE_U = true
  write : (t.leaf v).has PTE_W = true

def PhysMem.put (m : PhysMem) (x off : Nat) (bytes : List UInt8) : PhysMem :=
  { m with page := update m.page x (Buffer.write (m.page x) off bytes) }

theorem PhysMem.put_page (m : PhysMem) (x off : Nat) (bytes : List UInt8) :
    (m.put x off bytes).page x = (m.page x).write off bytes := update_self ..

theorem TableInv.handler_writable (h : TableInv L m env t) (hw : t.Writable (va / PGSIZE))
    (hva : va ≠ 0) : Xv6.cowPageFaultHandler L t.root va m = .ok (0, m) := by
  have hlt := h.user_lt hw.user
  have hmax : va < MAXVA := by
    simp only [userTop, TRAPFRAME, TRAMPOLINE, MAXVA, PGSIZE] at hlt ⊢
    omega
  have hwp : Wp (Xv6.cowPageFaultHandler L t.root va) (fun r m' => r = 0 ∧ m' = m) m := by
    obtain ⟨p, hp⟩ := h.rep.ptr_of_valid hw.valid
    unfold Xv6.cowPageFaultHandler
    rw [if_neg (by omega)]
    apply h.rep.wp_walk hmax
    rw [hp]
    apply h.rep.wp_readPte hp
    rw [hw.valid, hw.user, hw.write]
    exact wp_pure ⟨rfl, rfl⟩
  obtain ⟨r, m', hrun, rfl, rfl⟩ := hwp
  exact hrun

theorem TableInv.copyout_page (h : TableInv L m env t) (hw : t.Writable (va / PGSIZE)) (hva : va ≠ 0)
    (hne : bytes ≠ []) (hin : va % PGSIZE + bytes.length ≤ PGSIZE) :
    copyout L t.root va bytes m = .ok (0, m.put (pte2pa (t.leaf (va / PGSIZE))) (va % PGSIZE) bytes) := by
  have hdown : pgRoundDown va = va / PGSIZE * PGSIZE := rfl
  have hoff : va - pgRoundDown va = va % PGSIZE := by
    rw [hdown]
    simp only [PGSIZE]
    omega
  have haddr : walkaddr t.root (pgRoundDown va) m = .ok (some (pte2pa (t.leaf (va / PGSIZE))), m) := by
    rw [h.walkaddr_eq, hdown, Nat.mul_div_cancel _ (by decide), hw.valid, hw.user]
    rfl
  have hmin : min (PGSIZE - va % PGSIZE) bytes.length = bytes.length := Nat.min_eq_right (by omega)
  have hwp : Wp (copyout L t.root va bytes) (fun r m' => r = 0 ∧
      m' = m.put (pte2pa (t.leaf (va / PGSIZE))) (va % PGSIZE) bytes) m := by
    unfold copyout
    obtain ⟨k, hk⟩ := Nat.exists_eq_succ_of_ne_zero (mt List.length_eq_zero_iff.mp hne)
    rw [show Xv6.copyoutLoop L t.root bytes.length va bytes = Xv6.copyoutLoop L t.root (k + 1) va bytes by
      rw [hk], Xv6.copyoutLoop, if_neg hne]
    apply wp_bind
    refine ⟨0, m, h.handler_writable hw hva, ?_⟩
    dsimp only
    apply wp_bind
    refine ⟨_, m, haddr, ?_⟩
    apply wp_bind_modify
    rw [hoff, hmin, List.take_length, List.drop_length]
    cases k with
    | zero => exact wp_pure ⟨rfl, rfl⟩
    | succ k =>
      exact wp_pure ⟨rfl, rfl⟩
  obtain ⟨r, m', hrun, rfl, rfl⟩ := hwp
  exact hrun

theorem TableInv.put (h : TableInv L m env t) (hw : t.Writable v) (off : Nat) (bytes : List UInt8) :
    TableInv L (m.put (pte2pa (t.leaf v)) off bytes) env t ∧
      Set.EqOn (m.put (pte2pa (t.leaf v)) off bytes).page m.page {x | 0 < env.count x} :=
  have hres := h.writePage hw.valid hw.user hw.write off bytes rfl
  ⟨hres.1, hres.2.1⟩

def PhysMem.OnlyFrame (m : PhysMem) (x : Nat) (b : Buffer) (m' : PhysMem) : Prop :=
  m' = { m with page := update m.page x b }

theorem PhysMem.OnlyFrame.trans {m₁ m₂ : PhysMem} {b' : Buffer} (h : m.OnlyFrame x b m₁)
    (h' : m₁.OnlyFrame x b' m₂) : m.OnlyFrame x b' m₂ := by
  rw [PhysMem.OnlyFrame, h', h]
  simp only [update_idem]

/-- `pushArgs` onto a stack page that can be written: it succeeds if the strings fit, and it
writes to that page only. -/
theorem TableInv.pushArgs {argc : Nat} (h : TableInv L m env t) (hw : t.Writable v) (hv : 0 < v)
    (hargc : argc + argv.length ≤ MAXARG) (hlo : v * PGSIZE ≤ sp) (hhi : sp ≤ v * PGSIZE + PGSIZE) :
    Wp (pushArgs L t.root (v * PGSIZE) argv argc sp) (fun r m' => ∃ b,
      m.OnlyFrame (pte2pa (t.leaf v)) b m' ∧ TableInv L m' env t ∧
      Set.EqOn m'.page m.page {x | 0 < env.count x} ∧
      (v * PGSIZE ≤ argBottom argv sp ∧ r = some (argBottom argv sp, argSlots argv sp) ∧
          b = putArgs (m.page (pte2pa (t.leaf v))) (v * PGSIZE) argv sp ∨
        argBottom argv sp < v * PGSIZE ∧ r = none)) m := by
  have hbase : 0 < v * PGSIZE := Nat.mul_pos hv (by decide)
  induction argv generalizing m argc sp with
  | nil =>
    refine wp_pure ⟨m.page (pte2pa (t.leaf v)), ?_, h, fun _ _ => rfl, .inl ⟨hlo, rfl, rfl⟩⟩
    rw [PhysMem.OnlyFrame, update_eq_self]
  | cons arg rest ih =>
    rw [List.length_cons] at hargc
    have hle := below16_le sp (arg.length + 1)
    have hrest := argBottom_le rest (below16 sp (arg.length + 1))
    rw [Xv6.pushArgs, if_neg (by omega), argBottom, argSlots, putArgs]
    dsimp only
    rw [show sp - (arg.length + 1) - (sp - (arg.length + 1)) % 16 = below16 sp (arg.length + 1) from rfl]
    generalize below16 sp (arg.length + 1) = slot at hle hrest ⊢
    by_cases hlow : slot < v * PGSIZE
    · rw [if_pos hlow]
      refine wp_pure ⟨m.page (pte2pa (t.leaf v)), ?_, h, fun _ _ => rfl, .inr ⟨by omega, rfl⟩⟩
      rw [PhysMem.OnlyFrame, update_eq_self]
    rw [if_neg hlow]
    have hpage : slot / PGSIZE = v ∧ slot % PGSIZE = slot - v * PGSIZE := by
      simp only [PGSIZE] at hlow hle hhi hbase ⊢
      omega
    have hlen : (arg ++ [0]).length = arg.length + 1 := List.length_append ..
    have hcopy : copyout L t.root slot (arg ++ [0]) m =
        .ok (0, m.put (pte2pa (t.leaf v)) (slot - v * PGSIZE) (arg ++ [0])) := by
      have hpage' := h.copyout_page (by rwa [hpage.1]) (show slot ≠ 0 by omega)
        (List.append_ne_nil_of_right_ne_nil arg (List.cons_ne_nil 0 [])) (by omega)
      rwa [hpage.1, hpage.2] at hpage'
    obtain ⟨hinv, heq⟩ := h.put hw (slot - v * PGSIZE) (arg ++ [0])
    apply wp_bind
    refine ⟨0, _, hcopy, ?_⟩
    dsimp only
    refine (ih hinv (by omega) (by omega) (by omega)).bind fun r m₁ hr => ?_
    obtain ⟨b, hb, hinv₁, heq₁, hres⟩ := hr
    have hb' : m.OnlyFrame (pte2pa (t.leaf v)) b m₁ := PhysMem.OnlyFrame.trans rfl hb
    rcases hres with ⟨hfit, rfl, rfl⟩ | ⟨hno, rfl⟩
    · refine wp_pure ⟨_, hb', hinv₁, heq₁.trans heq, .inl ⟨hfit, rfl, ?_⟩⟩
      rw [PhysMem.put_page]
    · exact wp_pure ⟨b, hb', hinv₁, heq₁.trans heq, .inr ⟨hno, rfl⟩⟩

theorem Table.Writable.view (h : t.Writable v) (page : Nat → Buffer) :
    t.view page v = some (page (pte2pa (t.leaf v)), true) := by
  rw [Table.view, h.valid, h.user, h.write]
  rfl

theorem PhysMem.OnlyFrame.page {y : Nat} (h : m.OnlyFrame x b m') (hy : y ≠ x) :
    m'.page y = m.page y := by
  rw [h]
  exact update_of_ne hy _ _

theorem PhysMem.OnlyFrame.page_self (h : m.OnlyFrame x b m') : m'.page x = b := by
  rw [h]
  exact update_self ..

theorem Building.pushStack_exact (h : Building L env m t sz um) (hsz : sz = v * PGSIZE + PGSIZE)
    (hv : 0 < v) (hw : t.Writable v) (hargc : argv.length < MAXARG) :
    Wp (pushStack L t.root sz entry argv) (fun r m' => ∃ t' um', t'.root = t.root ∧
      Building L env m' t' sz um' ∧ Set.EqOn m'.page m.page {x | 0 < env.count x} ∧
      (∀ x, ¬ t.Has x → x ≠ pte2pa (t.leaf v) → m'.page x = m.page x) ∧
      (stackBytes argv ≤ PGSIZE ∧ r = some ⟨t'.root, sz, entry, sz - stackBytes argv, argv.length⟩ ∧
          (∃ page ustack, um' v = some (page, true) ∧
            ArgStack page (v * PGSIZE) argv (sz - stackBytes argv) ustack) ∨
        PGSIZE < stackBytes argv ∧ r = none)) m := by
  have hbase : 0 < v * PGSIZE := Nat.mul_pos hv (by decide)
  have htop := h.inv.user_lt hw.user
  have hcount : pageCount sz = v + 1 := by
    rw [hsz, ← Nat.succ_mul, pageCount_mul]
  have hguard : sz - 2 * PGSIZE = (v - 1) * PGSIZE := by
    rw [hsz]
    simp only [PGSIZE]
    omega
  have hstack : sz - PGSIZE = v * PGSIZE := by rw [hsz, Nat.add_sub_cancel]
  have hsp : below16 (argBottom argv sz) ((argv.length + 1) * 8) = sz - stackBytes argv := by
    apply stackBytes_eq
    rw [hsz]
    simp only [PGSIZE]
    omega
  have hle := below16_le (argBottom argv sz) ((argv.length + 1) * 8)
  unfold pushStack
  rw [hguard]
  refine (uvmclear_spec h (by omega)).bind fun _ m₁ hr => ?_
  obtain ⟨t₁, hroot₁, heq₁, hb₁, hleaf₁, hpage₁⟩ := hr
  have hw₁ : t₁.Writable v := by
    have hl := hleaf₁ v (by omega)
    exact ⟨hl ▸ hw.valid, hl ▸ hw.user, hl ▸ hw.write⟩
  rw [hstack, ← hroot₁, ← hleaf₁ v (by omega)]
  refine (hb₁.inv.pushArgs hw₁ hv (by omega) (by omega) (by omega)).bind fun r m₂ hr => ?_
  obtain ⟨b, hb, hinv₂, heq₂, ⟨hfit, rfl, rfl⟩ | ⟨hno, rfl⟩⟩ := hr
  · dsimp only
    rw [show argBottom argv sz - (argv.length + 1) * 8 - (argBottom argv sz - (argv.length + 1) * 8) % 16 =
      below16 (argBottom argv sz) ((argv.length + 1) * 8) from rfl, hsp]
    by_cases hlow : sz - stackBytes argv < v * PGSIZE
    · rw [if_pos hlow]
      refine wp_pure ⟨t₁, _, rfl, ⟨hinv₂, hb₁.covers, rfl⟩, heq₂.trans heq₁, fun x hx hne => ?_,
        .inr ⟨by omega, rfl⟩⟩
      rw [hb.page hne, hpage₁ x hx]
    rw [if_neg hlow]
    generalize hws : wordBytes (argSlots argv sz ++ [0]) = ws
    have hlen : ws.length = 8 * (argv.length + 1) := by
      rw [← hws, length_wordBytes, List.length_append, List.length_singleton, length_argSlots]
    have hpage : (sz - stackBytes argv) / PGSIZE = v ∧
        (sz - stackBytes argv) % PGSIZE = sz - stackBytes argv - v * PGSIZE := by
      have hbot := argBottom_le argv sz
      simp only [PGSIZE] at hlow hle hsz hbase ⊢
      omega
    have hcopy : Xv6.copyout L t₁.root (sz - stackBytes argv) ws m₂ =
        .ok (0, m₂.put (pte2pa (t₁.leaf v)) (sz - stackBytes argv - v * PGSIZE) ws) := by
      have hbot := argBottom_le argv sz
      have hone := hinv₂.copyout_page (by rwa [hpage.1]) (show sz - stackBytes argv ≠ 0 by omega)
        (show ws ≠ [] by rintro rfl; cases hlen) (by omega)
      rwa [hpage.1, hpage.2] at hone
    obtain ⟨hinv₃, heq₃⟩ := hinv₂.put hw₁ (sz - stackBytes argv - v * PGSIZE) ws
    apply wp_bind
    refine ⟨0, _, hcopy, ?_⟩
    dsimp only
    refine wp_pure ⟨t₁, _, rfl, ⟨hinv₃, hb₁.covers, rfl⟩, heq₃.trans (heq₂.trans heq₁), fun x hx hne => ?_,
      .inl ⟨by omega, rfl, _, argSlots argv sz, hw₁.view _, ?_⟩⟩
    · rw [PhysMem.put]
      dsimp only
      rw [update_of_ne hne, hb.page hne, hpage₁ x hx]
    · rw [PhysMem.put_page, hb.page_self, ← hws, hsz]
      refine argStack hbase ?_ ?_ (by omega)
      · simp only [userTop, TRAPFRAME, TRAMPOLINE, MAXVA, PGSIZE] at htop ⊢
        omega
      · rw [← hsz, hsp]
  · have hbot := argBottom_le argv sz
    refine wp_pure ⟨t₁, _, rfl, ⟨hinv₂, hb₁.covers, rfl⟩, heq₂.trans heq₁, fun x hx hne => ?_,
      .inr ⟨by omega, rfl⟩⟩
    rw [hb.page hne, hpage₁ x hx]

variable {s w : KState} {σ : Space Key} {p : Fin NPROC} {f : File} {tf : Nat}

/-- What process `p` finds when `exec` has started it with the arguments `argv`: the stack is the
last page of its memory. -/
def Started (w : KState) (p : Fin NPROC) (argv : List (List UInt8)) : Prop :=
  ∃ u tf page sp ustack, w.users p = some u ∧ (w.proc p).trapframe = some tf ∧
    (w.mem.page tf).getLE Trapframe.sp 8 = sp ∧ (w.mem.page tf).getLE Trapframe.a1 8 = sp ∧
    u.mem (u.sz / PGSIZE - 1) = some (page, true) ∧ ArgStack page (u.sz - PGSIZE) argv sp ustack

theorem Committed.started {page : Buffer} {ustack : List Nat}
    (h : Committed L s w σ p tf ⟨t.root, v * PGSIZE + PGSIZE, entry, sp, argv.length⟩ t um)
    (htf : (s.proc p).trapframe = some tf) (hsp : sp < 2 ^ 64) (hpage : um v = some (page, true))
    (hstack : ArgStack page (v * PGSIZE) argv sp ustack) : Started w p argv := by
  obtain ⟨hr1, hr2⟩ := h.registers hsp
  refine ⟨⟨um, v * PGSIZE + PGSIZE⟩, tf, page, sp, ustack, ?_, ?_, hr1, hr2, ?_, ?_⟩
  · rw [h.users, update_self]
  · rw [h.edits.self]
    exact htf
  · rw [← Nat.succ_mul, Nat.mul_div_cancel _ (by decide)]
    exact hpage
  · rw [Nat.add_sub_cancel]
    exact hstack

theorem Building.frame_below {u : Nat} (h : Building L env m t sz um) (hcount : pageCount sz = v + 1)
    (hu : u < v) : ¬ t.Has (pte2pa (pteOf m t.root u)) ∧
      pte2pa (pteOf m t.root u) ≠ pte2pa (t.leaf v) := by
  have htop := h.covers.le
  have hat (x : Nat) (hx : x < pageCount sz) : t.MapsAt x (pte2pa (t.leaf x)) :=
    ⟨by omega, (h.covers.user (by omega)).mpr hx, rfl⟩
  rw [h.inv.pteOf_eq]
  refine ⟨fun hh => h.inv.fits.apart _ hh ⟨u, hat u (by omega)⟩, fun heq => ?_⟩
  have huv := h.inv.fits.inj u v _ (hat u (by omega)) (heq ▸ hat v (by omega))
  omega

/-- Given a file that can be loaded and memory for it, `exec` fails exactly if the arguments do not
fit in the stack page. If it succeeds they are there. Below that page nothing is written for them. -/
theorem exec_argument_stack (hg : Good L s) (hrun : (s.proc p).state = .runnable)
    (htf : (s.proc p).trapframe = some tf) (hargs : argv.length < MAXARG) :
    ∃ r w, exec L p f argv s = .ok (r, w) ∧ (r = -1 ∨ r = argv.length ∧ Started w p argv) ∧
      ∀ pagetable sz entry m,
        loadImage L (fileReads f) tf s.mem = .ok (some (pagetable, sz, entry), m) →
        (r = -1 ↔ PGSIZE < stackBytes argv) ∧
        ∃ o m', pushStack L pagetable sz entry argv m = .ok (o, m') ∧
          ∀ v < sz / PGSIZE - 1, m'.page (pte2pa (pteOf m pagetable v)) =
            m.page (pte2pa (pteOf m pagetable v)) := by
  obtain ⟨⟨σ, hp⟩, hs⟩ := hg
  rw [exec]
  apply wp_bind_get
  apply wp_bind
  apply wp_deref htf
  apply wp_bind
  apply wp_onMem
  obtain ⟨o, m₁, hload, heq₁, hres⟩ := loadImage_spec hp.alloc_none tf
  apply wp_bind
  refine ⟨o, m₁, hload, ?_⟩
  rw [hload]
  rcases hres with ⟨rfl, ha⟩ | ⟨t, sz, um, rfl, -, -, hb, hU, hW⟩
  · exact wp_pure (wp_pure ⟨.inl rfl, fun _ _ _ _ hc => by cases hc⟩)
  generalize (fileReads f).elf.entry = entry at *
  have hsz : pgRoundUp sz + 2 * PGSIZE = (pageCount sz + 1) * PGSIZE + PGSIZE := by
    rw [pgRoundUp_eq]
    simp only [PGSIZE]
    omega
  have hcount : pageCount (pgRoundUp sz + 2 * PGSIZE) = pageCount sz + 1 + 1 := by
    rw [hsz, ← Nat.succ_mul, pageCount_mul]
  have htop := hb.inv.user_lt hU
  have hw : t.Writable (pageCount sz + 1) :=
    ⟨(hb.covers.user htop).mpr (by omega), hU, hW⟩
  have hexact : Wp (pushStack L t.root (pgRoundUp sz + 2 * PGSIZE) entry argv) _ m₁ :=
    hb.pushStack_exact hsz (Nat.succ_pos _) hw hargs
  obtain ⟨r, m₂, hpush, t₂, um₂, hroot₂, hb₂, heq₂, hsame, hres⟩ := hexact
  have hbelow : ∀ pagetable sz' e m, Except.ok (some (t.root, pgRoundUp sz + 2 * PGSIZE, entry), m₁) =
      (.ok (some (pagetable, sz', e), m) : Except Panic _) →
      ∃ o m', pushStack L pagetable sz' e argv m = .ok (o, m') ∧
        ∀ v < sz' / PGSIZE - 1, m'.page (pte2pa (pteOf m pagetable v)) =
          m.page (pte2pa (pteOf m pagetable v)) := by
    intro pagetable sz' e m hc
    cases hc
    refine ⟨r, m₂, hpush, fun v hv => ?_⟩
    rw [hsz, ← Nat.succ_mul, Nat.mul_div_cancel _ (by decide)] at hv
    obtain ⟨hhas, hne⟩ := hb.frame_below hcount (show v < pageCount sz + 1 by omega)
    exact hsame _ hhas hne
  apply wp_bind
  refine ⟨r, m₂, hpush, ?_⟩
  rcases hres with ⟨hfit, rfl, page, ustack, hpage, hstack⟩ | ⟨hno, rfl⟩
  · apply wp_pure
    rw [hsz] at hb₂ hstack hbelow ⊢
    refine (hp.commitImage hs hrun htf (heq₂.trans heq₁) hb₂ rfl).mono fun r w hw => ?_
    obtain ⟨rfl, hc⟩ := hw
    refine ⟨.inr ⟨rfl, hc.started htf ?_ hpage hstack⟩, fun _ _ _ m hm => ⟨?_, hbelow _ _ _ _ hm⟩⟩
    · simp only [userTop, TRAPFRAME, TRAMPOLINE, MAXVA, PGSIZE] at htop ⊢
      omega
    · constructor
      · intro hc
        cases hc
      · omega
  · rw [← hroot₂]
    refine (hb₂.free (heq₂.trans heq₁)).bind fun _ m₃ hr => ?_
    refine wp_pure (wp_pure ⟨.inl rfl, fun _ _ _ m hm => ⟨iff_of_true rfl hno, hbelow _ _ _ _ ?_⟩⟩)
    rw [hroot₂] at hm
    exact hm

theorem exec_argument_stack_of_tiny : ∃ s w, Good smallKernel s ∧
    exec smallKernel 0 tinyElf tinyArgs s = .ok (2, w) ∧ Started w 0 tinyArgs := by
  obtain ⟨s, tf, im, m, hg, hrun, htf, himage, hargc⟩ := exists_tiny_image
  obtain ⟨σ, hp⟩ := hg.procs
  obtain ⟨w, hexec⟩ := hp.exec_image hg.settled hrun htf himage
  rw [hargc] at hexec
  have hstack := exec_argument_stack (f := tinyElf) hg hrun htf (show tinyArgs.length < MAXARG by decide)
  obtain ⟨r, w', hrun', hres, -⟩ := hstack
  rw [hexec] at hrun'
  cases hrun'
  rcases hres with hneg | ⟨-, hstarted⟩
  · cases hneg
  · exact ⟨s, w, hg, hexec, hstarted⟩

end Xv6
