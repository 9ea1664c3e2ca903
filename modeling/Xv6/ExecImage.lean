import Xv6.UserImage

/-! The memory image `exec` builds, as a private memory, and that the page table it makes
holds just that. -/

namespace Xv6

open StateProg

def segmentPage (rd : Reads) (i offset sz j : Nat) : List UInt8 :=
  rd.read (.page i j) ((offset + j * PGSIZE) % 2 ^ 32)
    (if sz - j * PGSIZE < PGSIZE then sz - j * PGSIZE else PGSIZE)

namespace UserMem

def putSegment (um : UserMem) (v : Nat) (rd : Reads) (i offset sz : Nat) : Nat → UserMem
  | 0 => um
  | n + 1 => (um.putSegment v rd i offset sz n).putPage (v + n) 0 (segmentPage rd i offset sz n)

/-- `um` grown from `sz` to `newsz` bytes; `none` when there is nothing to grow to. -/
def growTo (um : UserMem) (sz newsz : Nat) (w : Bool) : Option (UserMem × Nat) :=
  if newsz < sz then some (um, sz)
  else if newsz = 0 then none
  else some (um.grow (pageCount sz) (pageCount newsz) w, newsz)

/-- The memory with the segments of `n` program headers from number `i` on, read from `off` on. -/
def putSegments (rd : Reads) : Nat → Nat → Nat → UserMem × Nat → Option (UserMem × Nat)
  | 0, _, _, im => some im
  | n + 1, i, off, im =>
    if (rd.read (.phdr i) off Proghdr.bytes).length ≠ Proghdr.bytes then none
    else
      let ph := proghdr (readBuffer (rd.read (.phdr i) off Proghdr.bytes)) 0
      if ph.type ≠ ELF_PROG_LOAD then putSegments rd n (i + 1) ((off + Proghdr.bytes) % 2 ^ 32) im
      else if ph.ok = false then none
      else
        match im.1.growTo im.2 ((ph.vaddr + ph.memsz) % 2 ^ 64) ((flags2perm ph.flags).has PTE_W) with
        | none => none
        | some (um, sz) =>
          putSegments rd n (i + 1) ((off + Proghdr.bytes) % 2 ^ 32)
            (um.putSegment (ph.vaddr / PGSIZE) rd i (ph.off % 2 ^ 32) (ph.filesz % 2 ^ 32)
              ((ph.filesz % 2 ^ 32 + PGSIZE - 1) / PGSIZE), sz)

def pushArgs (stackbase : Nat) : List (List UInt8) → UserMem → Nat → Option (UserMem × Nat × List Nat)
  | [], um, sp => some (um, sp, [])
  | arg :: rest, um, sp =>
    let sp := sp - (arg.length + 1)
    let sp := sp - sp % 16
    if sp < stackbase then none
    else
      match copyout (arg.length + 1) um sp (arg ++ [0]) with
      | (um', r) =>
        if r < 0 then none
        else (pushArgs stackbase rest um' sp).map fun res => (res.1, res.2.1, sp :: res.2.2)

/-- The image with a guard page and a stack page on top, and the arguments on the stack. -/
def pushStack (um : UserMem) (sz : Nat) (argv : List (List UInt8)) : Option UserMem :=
  let um := um.shrink (pageCount sz - 2) (pageCount sz - 1)
  let stackbase := sz - PGSIZE
  match um.pushArgs stackbase argv sz with
  | none => none
  | some (um, sp, ustack) =>
    let sp := sp - (argv.length + 1) * 8
    let sp := sp - sp % 16
    if sp < stackbase then none
    else
      match copyout (wordBytes (ustack ++ [0])).length um sp (wordBytes (ustack ++ [0])) with
      | (um', r) => if r < 0 then none else some um'

end UserMem

/-- The memory of a process that runs a program with these arguments, and its size. -/
def programImage (rd : Reads) (argv : List (List UInt8)) : Option (UserMem × Nat) :=
  if (rd.read .elf 0 Elfhdr.bytes).length ≠ Elfhdr.bytes then none
  else
    match UserMem.putSegments rd rd.elf.phnum 0 (rd.elf.phoff % 2 ^ 32) (UserMem.empty, 0) with
    | none => none
    | some (um, sz) =>
      let top := pgRoundUp sz + 2 * PGSIZE
      ((um.grow (pageCount sz) (pageCount sz + 2) true).pushStack top argv).map fun um' => (um', top)

section File

variable {f : File} {off n : Nat}

theorem readi_full (h : (readi f off n).length = n) (hn : n ≠ 0) :
    readi f off n = f.data.read off n := by
  rw [readi] at h ⊢
  split at h
  · exact absurd h.symm hn
  · next hc =>
    rw [Buffer.length_read] at h
    rw [if_neg hc, h]

theorem getLE_readBuffer {k j : Nat} (hk : k + j ≤ n) :
    (readBuffer (f.data.read off n)).getLE k j = f.data.getLE (off + k) j := by
  apply Buffer.getLE_shift
  intro i hi
  have hlt : k + i < (f.data.read off n).length := by
    rw [Buffer.length_read]
    omega
  rw [readBuffer, List.getD_eq_getElem _ _ hlt, Buffer.getElem_read, Nat.add_assoc]

theorem proghdr_fileReads {i : Nat}
    (h : ((fileReads f).read (.phdr i) off Proghdr.bytes).length = Proghdr.bytes) :
    proghdr (readBuffer ((fileReads f).read (.phdr i) off Proghdr.bytes)) 0 = proghdr f.data off := by
  change proghdr (readBuffer (readi f off Proghdr.bytes)) 0 = _
  rw [readi_full h (by decide), proghdr, proghdr]
  rfl

theorem elf_fileReads (h : (readi f 0 Elfhdr.bytes).length = Elfhdr.bytes) :
    (fileReads f).elf = elfhdr f.data := by
  change elfhdr (readBuffer (readi f 0 Elfhdr.bytes)) = _
  rw [readi_full h (by decide), elfhdr, elfhdr]
  rw [getLE_readBuffer (by decide), getLE_readBuffer (by decide), getLE_readBuffer (by decide),
    getLE_readBuffer (by decide)]

end File

variable {L : Layout} {m m₀ m' : PhysMem} {env : Env} {t t' : Table} {v n q i sz lo hi len va : Nat}
  {um : UserMem} {argv : List (List UInt8)} {f : File} {rd : Reads} {perm : Pte}

theorem Table.Extends.view (h : Table.Extends env m'.page perm t t' lo hi) (hf : t.Fits env)
    (hlow : perm.toNat < 1024) (hu : perm.has PTE_U = true)
    (heq : Set.EqOn m'.page m.page (env.live t)) :
    t'.view m'.page = (t.view m.page).grow lo hi (perm.has PTE_W || perm.has PTE_COW) := by
  funext u
  rw [UserMem.grow]
  by_cases hin : lo ≤ u ∧ u < hi
  · obtain ⟨x, hx, ha, h0, _⟩ := h.fresh u hin.1 hin.2
    obtain ⟨hV, _, hW, hU, hC⟩ := mapped_flags x perm
    rw [if_pos hin, Table.view, hx, hV, hU, hu, hW, hC, mapped_pa ha hlow, h0]
    rfl
  · rw [if_neg hin]
    exact hf.view_congr (h.same u hin) fun x hx => heq (.inr ⟨u, hx⟩)

structure Building (L : Layout) (env : Env) (m : PhysMem) (t : Table) (sz : Nat) (um : UserMem) :
    Prop where
  inv : TableInv L m env t
  covers : t.Covers (pageCount sz)
  view : t.view m.page = um

structure Table.Own (env : Env) (t : Table) (n : Nat) : Prop where
  user : ∀ v < n, (t.leaf v).has PTE_U = true
  priv : ∀ v q, t.MapsAt v q → env.count q = 0

structure XPerm (xperm : Pte) : Prop where
  low : (PTE_R ||| PTE_U ||| xperm).toNat < 1024
  readable : (PTE_R ||| PTE_U ||| xperm).has PTE_R = true
  user : (PTE_R ||| PTE_U ||| xperm).has PTE_U = true
  write : (PTE_R ||| PTE_U ||| xperm).has PTE_W = xperm.has PTE_W
  cow : (PTE_R ||| PTE_U ||| xperm).has PTE_COW = false

theorem xperm_W : XPerm PTE_W := ⟨by decide, by decide, by decide, by decide, by decide⟩

theorem xperm_flags2perm (flags : Nat) : XPerm (flags2perm flags) := by
  unfold flags2perm
  by_cases h1 : flags % 2 = 1 <;> by_cases h2 : flags / 2 % 2 = 1
  · rw [if_pos h1, if_pos h2]
    exact ⟨by decide, by decide, by decide, by decide, by decide⟩
  · rw [if_pos h1, if_neg h2]
    exact ⟨by decide, by decide, by decide, by decide, by decide⟩
  · rw [if_neg h1, if_pos h2]
    exact ⟨by decide, by decide, by decide, by decide, by decide⟩
  · rw [if_neg h1, if_neg h2]
    exact ⟨by decide, by decide, by decide, by decide, by decide⟩

theorem Table.Extends.covers (h : Table.Extends env m.page perm t t' lo hi) (hc : t.Covers lo)
    (hle : lo ≤ hi) (hi' : hi ≤ userTop) : t'.Covers hi := by
  refine ⟨fun u => ?_, hi'⟩
  by_cases hin : lo ≤ u ∧ u < hi
  · simp only [h.valid hin.1 hin.2, hin.2, true_or]
  · rw [h.same u hin, hc.valid u]
    have hiff : u < lo ↔ u < hi := by omega
    rw [hiff]

theorem Building.uvmalloc {newsz : Nat} {xperm : Pte} (h : Building L env m t sz um) (hx : XPerm xperm) :
    Wp (uvmalloc L t.root sz newsz xperm) (fun r m' => ∃ t', t'.root = t.root ∧
      Set.EqOn m'.page m.page (env.live t) ∧
      (r = none ∧ Building L env m' t' sz um ∧ t'.leaf = t.leaf ∨
       ∃ um' sz', r = some sz' ∧ um.growTo sz newsz (xperm.has PTE_W) = some (um', sz') ∧
        newsz ≤ sz' ∧ Building L env m' t' sz' um' ∧
        (t.Own env (pageCount sz) → t'.Own env (pageCount sz')) ∧
        ∀ v, pageCount sz ≤ v → v < pageCount sz' → (t'.leaf v).has PTE_U = true ∧
          (t'.leaf v).has PTE_W = xperm.has PTE_W)) m := by
  have hz : ∀ u, pageCount sz ≤ u → u < userTop → (t.leaf u).has PTE_V = false :=
    fun u h1 h2 => h.covers.not_valid h1 h2
  refine (h.inv.uvmalloc (h.covers.room h.inv) hz hx.low hx.readable (fun _ => hx.cow)).mono
    fun r m' hr => ?_
  obtain ⟨t', hinv, hroot, heq, hres⟩ := hr
  have hsame : t'.leaf = t.leaf → Building L env m' t' sz um := by
    intro hl
    refine ⟨hinv, h.covers.congr (fun v => by rw [hl]), ?_⟩
    rw [← h.view]
    funext u
    exact h.inv.fits.view_congr (by rw [hl]) fun x hx' => heq (.inr ⟨u, hx'⟩)
  refine ⟨t', hroot, heq, ?_⟩
  rcases hres with ⟨rfl, hl, _⟩ | ⟨rfl, hlt, hl⟩ | ⟨rfl, hne, hle, htop, hext⟩
  · exact .inl ⟨rfl, hsame hl, hl⟩
  · refine .inr ⟨um, sz, rfl, ?_, by omega, hsame hl, fun ho => ⟨by rw [hl]; exact ho.user, ?_⟩,
      fun v hlo hhi => by omega⟩
    · rw [UserMem.growTo, if_pos hlt]
    · intro v q hq
      rw [Table.MapsAt, hl] at hq
      exact ho.priv v q hq
  · have hgrow : um.growTo sz newsz (xperm.has PTE_W) =
        some (um.grow (pageCount sz) (pageCount newsz) (xperm.has PTE_W), newsz) := by
      rw [UserMem.growTo, if_neg (by omega), if_neg hne]
    have hview := hext.view h.inv.fits hx.low hx.user heq
    rw [h.view, hx.write, hx.cow, Bool.or_false] at hview
    have hmono := pageCount_mono hle
    have hfresh : ∀ v, pageCount sz ≤ v → v < pageCount newsz → (t'.leaf v).has PTE_U = true ∧
        (t'.leaf v).has PTE_W = xperm.has PTE_W := by
      intro v hlo hhi
      obtain ⟨x, hl, -⟩ := hext.fresh v hlo hhi
      rw [hl]
      exact ⟨(mapped_flags x _).2.2.2.1.trans hx.user, (mapped_flags x _).2.2.1.trans hx.write⟩
    refine .inr ⟨_, newsz, rfl, hgrow, Nat.le_refl _,
      ⟨hinv, hext.covers h.covers hmono htop, hview⟩, fun ho => ⟨fun u hu => ?_, fun u q hq => ?_⟩, hfresh⟩
    · by_cases hin : pageCount sz ≤ u
      · exact (hfresh u hin hu).1
      · rw [hext.same u (by omega)]
        exact ho.user u (by omega)
    · by_cases hin : pageCount sz ≤ u ∧ u < pageCount newsz
      · obtain ⟨x, _, _, _, hc, hat⟩ := hext.mapsAt hx.low htop hin.1 hin.2
        rw [← hq.2.2, hat.2.2]
        exact hc
      · rw [Table.MapsAt, hext.same u hin] at hq
        exact ho.priv u q hq

theorem Building.loadPage {j : Nat} (h : Building L env m t sz um) (ho : t.Own env (pageCount sz))
    (hal : va % PGSIZE = 0) (hle : va + len ≤ sz) (hj : j < (len + PGSIZE - 1) / PGSIZE)
    (bytes : List UInt8) : ∃ pa, walkaddr t.root (va + j * PGSIZE) m = .ok (some pa, m) ∧
      ∀ m', m' = { m with page := Function.update m.page pa (Buffer.write (m.page pa) 0 bytes) } →
        Set.EqOn m'.page m.page {x | 0 < env.count x} ∧
        Building L env m' t sz (um.putPage (va / PGSIZE + j) 0 bytes) := by
  have hpage : (va + j * PGSIZE) / PGSIZE = va / PGSIZE + j := by
    simp only [PGSIZE] at hal ⊢
    omega
  have hlt : va / PGSIZE + j < pageCount sz := by
    simp only [pageCount, pgRoundUp, PGSIZE] at hal hle hj ⊢
    omega
  have htop := h.covers.le
  have hv := (h.covers.user (show va / PGSIZE + j < userTop by omega)).mpr hlt
  have hu := ho.user _ hlt
  have hat : t.MapsAt (va / PGSIZE + j) (pte2pa (t.leaf (va / PGSIZE + j))) :=
    ⟨by omega, hv, rfl⟩
  refine ⟨pte2pa (t.leaf (va / PGSIZE + j)), ?_, fun m' hm => ?_⟩
  · rw [h.inv.walkaddr_eq, hpage, hv, hu]
    rfl
  · obtain ⟨hinv, heq, hview⟩ := h.inv.putPage hat (ho.priv _ _ hat) 0 bytes hm
    rw [h.view] at hview
    exact ⟨heq, hinv, h.covers, hview⟩

theorem loadseg_spec {offset : Nat} (h : Building L env m t sz um) (ho : t.Own env (pageCount sz))
    (hal : va % PGSIZE = 0) (hle : va + len ≤ sz) :
    Wp (loadseg rd i t.root va offset len) (fun r m' =>
      Set.EqOn m'.page m.page {x | 0 < env.count x} ∧
      (r = -1 ∧ (∃ um', Building L env m' t sz um') ∨
       r = 0 ∧ Building L env m' t sz
        (um.putSegment (va / PGSIZE) rd i offset len ((len + PGSIZE - 1) / PGSIZE)))) m := by
  refine (wp_loop_exit (fun j m' => Set.EqOn m'.page m.page {x | 0 < env.count x} ∧
      Building L env m' t sz (um.putSegment (va / PGSIZE) rd i offset len j))
    (fun r m' => r = -1 ∧ Set.EqOn m'.page m.page {x | 0 < env.count x} ∧
      ∃ um', Building L env m' t sz um') ?_ ?_).bind fun r m' hres => ?_
  · exact ⟨fun _ _ => rfl, h⟩
  · rintro j m₁ hj ⟨heq, hb⟩
    obtain ⟨pa, haddr, hput⟩ := hb.loadPage ho hal hle hj (segmentPage rd i offset len j)
    obtain ⟨heq₂, hb₂⟩ := hput _ rfl
    apply wp_bind
    refine ⟨_, m₁, haddr, ?_⟩
    dsimp only
    apply wp_bind_modify
    by_cases hlen : (rd.read (.page i j) ((offset + j * PGSIZE) % 2 ^ 32)
        (if len - j * PGSIZE < PGSIZE then len - j * PGSIZE else PGSIZE)).length ≠
          (if len - j * PGSIZE < PGSIZE then len - j * PGSIZE else PGSIZE)
    · rw [if_pos hlen]
      exact wp_pure ⟨rfl, heq₂.trans heq, _, hb₂⟩
    · rw [if_neg hlen]
      exact wp_pure ⟨heq₂.trans heq, hb₂⟩
  · cases r with
    | none =>
      obtain ⟨heq, hb⟩ := hres
      exact wp_pure ⟨heq, .inr ⟨rfl, hb⟩⟩
    | some r =>
      obtain ⟨rfl, heq, hb⟩ := hres
      exact wp_pure ⟨heq, .inl ⟨rfl, hb⟩⟩

theorem uvmclear_spec (h : Building L env m t sz um) (hv : v < pageCount sz) :
    Wp (uvmclear t.root (v * PGSIZE)) (fun _ m' => ∃ t', t'.root = t.root ∧
      Set.EqOn m'.page m.page {x | 0 < env.count x} ∧
      Building L env m' t' sz (um.shrink v (v + 1)) ∧ (∀ u, u ≠ v → t'.leaf u = t.leaf u) ∧
      ∀ x, ¬ t.Has x → m'.page x = m.page x) m := by
  have htop := h.covers.le
  have hva : v * PGSIZE < MAXVA := by
    simp only [userTop, TRAPFRAME, TRAMPOLINE, MAXVA, PGSIZE] at htop ⊢
    omega
  have hdiv : v * PGSIZE / PGSIZE = v := by
    simp only [PGSIZE]
    omega
  have hval := (h.covers.user (show v < userTop by omega)).mpr hv
  have hat : t.MapsAt v (pte2pa (t.leaf v)) := ⟨by omega, hval, rfl⟩
  obtain ⟨p, hp⟩ := h.inv.rep.ptr_of_valid hval
  obtain ⟨hV, hR, hW, hC, hU, hpa⟩ := clearUser (t.leaf v)
  apply h.inv.rep.wp_walk hva
  rw [hdiv, hp]
  apply h.inv.rep.wp_readPte hp
  apply wp_modify
  have hwf := h.inv.fits.leaf v
  have hpage := h.inv.page_setPte hp (t.leaf v &&& ~~~PTE_U)
  generalize t.leaf v &&& ~~~PTE_U = pte at *
  refine ⟨t.setLeaf v pte, rfl, fun x hx => hpage (.inl hx), ⟨?_, ?_, ?_⟩,
    fun u hu => Table.leaf_setLeaf_ne hu, fun x hx => Function.update_of_ne ?_ _ _⟩
  · apply h.inv.setPte hp
    · apply h.inv.fits.setLeaf
      · refine ⟨fun hf => ?_, fun hge => hV.trans (hwf.top hge), fun _ => hR.trans (hwf.readable hval),
          fun hf => hC.trans (hwf.cow (hW ▸ hf)), fun _ => hU⟩
        rw [hV, hval] at hf
        cases hf
      · intro _ _
        rw [hpa]
        exact ⟨fun hs => h.inv.fits.sole _ hs (.inr ⟨v, hat⟩), fun hh => h.inv.fits.apart _ hh ⟨v, hat⟩,
          fun hf => h.inv.fits.writable v _ hat (hW ▸ hf), fun u hne hu => hne (h.inv.fits.inj u v _ hu hat)⟩
    · exact owners_same fun _ => ⟨hV, hpa⟩
  · apply h.covers.congr
    intro u
    by_cases he : u = v
    · subst u
      rw [Table.leaf_setLeaf_self, hV]
    · rw [Table.leaf_setLeaf_ne he]
  · rw [← h.view]
    funext u
    rw [UserMem.shrink]
    by_cases he : u = v
    · subst u
      rw [if_pos (by omega), Table.view, Table.leaf_setLeaf_self, hU, Bool.and_false]
      rfl
    · rw [if_neg (by omega)]
      exact h.inv.fits.view_congr (Table.leaf_setLeaf_ne he) fun x hx => hpage (.inr ⟨u, hx⟩)
  · rintro rfl
    exact hx (Table.ptr_has hp)

theorem Proghdr.ok_iff {ph : Proghdr} (h : ph.ok = true) : ph.filesz ≤ ph.memsz ∧
    ph.vaddr ≤ (ph.vaddr + ph.memsz) % 2 ^ 64 ∧ ph.vaddr % PGSIZE = 0 := by
  simp only [Proghdr.ok, Bool.and_eq_true, Bool.not_eq_true', decide_eq_false_iff_not, beq_iff_eq] at h
  exact ⟨by omega, by omega, h.2⟩

theorem proghdr_lt (b : Buffer) (off : Nat) : (proghdr b off).vaddr < 2 ^ 64 ∧
    (proghdr b off).memsz < 2 ^ 64 :=
  ⟨Buffer.getLE_lt b _ 8, Buffer.getLE_lt b _ 8⟩

theorem loadSegments_spec {off : Nat} (h : Building L env m t sz um) (ho : t.Own env (pageCount sz)) :
    Wp (loadSegments L rd t.root n i off sz) (fun r m' => ∃ t', t'.root = t.root ∧
      Set.EqOn m'.page m.page {x | 0 < env.count x} ∧
      ((∃ sz' um', r = .error sz' ∧ Building L env m' t' sz' um') ∨
       ∃ sz' um', r = .ok sz' ∧ UserMem.putSegments rd n i off (um, sz) = some (um', sz') ∧
        Building L env m' t' sz' um' ∧ t'.Own env (pageCount sz'))) m := by
  induction n generalizing m t sz um i off with
  | zero => exact wp_pure ⟨t, rfl, fun _ _ => rfl, .inr ⟨sz, um, rfl, rfl, h, ho⟩⟩
  | succ n ih =>
    rw [loadSegments, UserMem.putSegments]
    by_cases hread : (rd.read (.phdr i) off Proghdr.bytes).length ≠ Proghdr.bytes
    · rw [if_pos hread]
      exact wp_pure ⟨t, rfl, fun _ _ => rfl, .inl ⟨sz, um, rfl, h⟩⟩
    rw [if_neg hread, if_neg hread]
    obtain ⟨hvlt, hmlt⟩ := proghdr_lt (readBuffer (rd.read (.phdr i) off Proghdr.bytes)) 0
    generalize proghdr (readBuffer (rd.read (.phdr i) off Proghdr.bytes)) 0 = ph at *
    by_cases htype : ph.type ≠ ELF_PROG_LOAD
    · rw [if_pos htype, if_pos htype]
      exact ih h ho
    rw [if_neg htype, if_neg htype]
    by_cases hok : ph.ok = false
    · rw [if_pos hok]
      exact wp_pure ⟨t, rfl, fun _ _ => rfl, .inl ⟨sz, um, rfl, h⟩⟩
    rw [if_neg hok, if_neg hok]
    obtain ⟨hfile, hwrap, hal⟩ := Proghdr.ok_iff (Bool.not_eq_false _ ▸ hok)
    refine (h.uvmalloc (xperm_flags2perm ph.flags)).bind fun r m₁ hr => ?_
    obtain ⟨t₁, hroot₁, heq₁, ⟨rfl, hb₁, _⟩ | ⟨um₁, sz₁, rfl, hgrow, hle, hb₁, ho₁, -⟩⟩ := hr
    · exact wp_pure ⟨t₁, hroot₁, fun x hx => heq₁ (.inl hx), .inl ⟨sz, um, rfl, hb₁⟩⟩
    · have hfits : ph.vaddr + ph.filesz % 2 ^ 32 ≤ sz₁ := by
        omega
      rw [← hroot₁]
      refine (loadseg_spec hb₁ (ho₁ ho) hal hfits).bind fun r m₂ hr => ?_
      obtain ⟨heq₂, ⟨rfl, um₂, hb₂⟩ | ⟨rfl, hb₂⟩⟩ := hr
      · rw [if_pos (by decide)]
        exact wp_pure ⟨t₁, rfl, fun x hx => (heq₂ hx).trans (heq₁ (.inl hx)),
          .inl ⟨sz₁, um₂, rfl, hb₂⟩⟩
      · rw [if_neg (by decide), hgrow]
        refine (ih hb₂ (ho₁ ho)).mono fun r m₃ hr => ?_
        obtain ⟨t₃, hroot₃, heq₃, hres⟩ := hr
        exact ⟨t₃, hroot₃, fun x hx => (heq₃ hx).trans ((heq₂ hx).trans (heq₁ (.inl hx))), hres⟩

theorem Building.copyout (h : Building L env m t sz um) (va : Nat) (bytes : List UInt8) :
    Wp (copyout L t.root va bytes) (fun r m' => ∃ t', t'.root = t.root ∧
      Set.EqOn m'.page m.page {x | 0 < env.count x} ∧
      (r = -1 ∧ (∃ um', Building L env m' t' sz um') ∨
       r = 0 ∧ ∃ um', UserMem.copyout bytes.length um va bytes = (um', 0) ∧
        Building L env m' t' sz um')) m := by
  refine (h.inv.copyoutLoop bytes.length va bytes).mono fun r m' hr => ?_
  obtain ⟨t', hinv, hag, heq, hr, hcopy⟩ := hr
  have hcov : t'.Covers (pageCount sz) := h.covers.congr fun v => (hag.leaf v).valid
  refine ⟨t', hag.root, heq, ?_⟩
  rcases hr with rfl | rfl
  · have hc := hcopy (.inl rfl)
    rw [h.view] at hc
    exact .inr ⟨rfl, _, hc.symm, hinv, hcov, rfl⟩
  · exact .inl ⟨rfl, _, hinv, hcov, rfl⟩

theorem pushArgs_spec {argc sp stackbase : Nat} (h : Building L env m t sz um) :
    Wp (pushArgs L t.root stackbase argv argc sp) (fun r m' => ∃ t', t'.root = t.root ∧
      Set.EqOn m'.page m.page {x | 0 < env.count x} ∧
      (r = none ∧ (∃ um', Building L env m' t' sz um') ∨
       ∃ um' top ustack, r = some (top, ustack) ∧
        UserMem.pushArgs stackbase argv um sp = some (um', top, ustack) ∧
        Building L env m' t' sz um')) m := by
  induction argv generalizing m t um argc sp with
  | nil => exact wp_pure ⟨t, rfl, fun _ _ => rfl, .inr ⟨um, sp, [], rfl, rfl, h⟩⟩
  | cons arg rest ih =>
    rw [pushArgs, UserMem.pushArgs]
    by_cases hmax : argc ≥ MAXARG
    · rw [if_pos hmax]
      exact wp_pure ⟨t, rfl, fun _ _ => rfl, .inl ⟨rfl, um, h⟩⟩
    rw [if_neg hmax]
    dsimp only
    generalize sp - (arg.length + 1) - (sp - (arg.length + 1)) % 16 = sp'
    by_cases hlow : sp' < stackbase
    · rw [if_pos hlow]
      exact wp_pure ⟨t, rfl, fun _ _ => rfl, .inl ⟨rfl, um, h⟩⟩
    rw [if_neg hlow, if_neg hlow]
    refine (h.copyout sp' (arg ++ [0])).bind fun r m₁ hr => ?_
    obtain ⟨t₁, hroot₁, heq₁, ⟨rfl, um₁, hb₁⟩ | ⟨rfl, um₁, hcopy, hb₁⟩⟩ := hr
    · exact wp_pure ⟨t₁, hroot₁, heq₁, .inl ⟨rfl, um₁, hb₁⟩⟩
    · rw [List.length_append, List.length_singleton] at hcopy
      rw [if_neg (by decide), hcopy, ← hroot₁]
      refine (ih hb₁).bind fun r m₂ hr => ?_
      obtain ⟨t₂, hroot₂, heq₂, ⟨rfl, hb₂⟩ | ⟨um₂, top, ustack, rfl, hpush, hb₂⟩⟩ := hr
      · exact wp_pure ⟨t₂, hroot₂, heq₂.trans heq₁, .inl ⟨rfl, hb₂⟩⟩
      · refine wp_pure ⟨t₂, hroot₂, heq₂.trans heq₁, .inr ⟨um₂, top, sp' :: ustack, rfl, ?_, hb₂⟩⟩
        simp only [Int.lt_irrefl, if_false, hpush, Option.map_some]

theorem pushStack_spec {entry : Nat} (h : Building L env m t sz um) (hal : sz % PGSIZE = 0)
    (hsz : 2 * PGSIZE ≤ sz) :
    Wp (pushStack L t.root sz entry argv) (fun r m' => ∃ t', t'.root = t.root ∧
      Set.EqOn m'.page m.page {x | 0 < env.count x} ∧
      (r = none ∧ (∃ um', Building L env m' t' sz um') ∨
       ∃ sp um', r = some ⟨t'.root, sz, entry, sp, argv.length⟩ ∧ um.pushStack sz argv = some um' ∧
        Building L env m' t' sz um')) m := by
  have hcount : pageCount sz * PGSIZE = sz := by
    simp only [pageCount, pgRoundUp, PGSIZE] at hal ⊢
    omega
  have hguard : sz - 2 * PGSIZE = (pageCount sz - 2) * PGSIZE := by
    simp only [PGSIZE] at hcount hsz ⊢
    omega
  rw [UserMem.pushStack]
  apply wp_bind
  rw [hguard]
  have hlt : pageCount sz - 2 < pageCount sz := by
    simp only [PGSIZE] at hcount hsz
    omega
  refine (uvmclear_spec h hlt).mono fun _ m₁ hr => ?_
  obtain ⟨t₁, hroot₁, heq₁, hb₁, -⟩ := hr
  have hone : pageCount sz - 2 + 1 = pageCount sz - 1 := by
    simp only [PGSIZE] at hcount hsz
    omega
  rw [hone] at hb₁
  apply wp_bind
  rw [← hroot₁]
  refine (pushArgs_spec hb₁).mono fun r m₂ hr => ?_
  obtain ⟨t₂, hroot₂, heq₂, ⟨rfl, hb₂⟩ | ⟨um₂, sp, ustack, rfl, hpush, hb₂⟩⟩ := hr
  · exact wp_pure ⟨t₂, hroot₂, heq₂.trans heq₁, .inl ⟨rfl, hb₂⟩⟩
  · rw [hpush]
    dsimp only
    generalize sp - (argv.length + 1) * 8 - (sp - (argv.length + 1) * 8) % 16 = sp'
    by_cases hlow : sp' < sz - PGSIZE
    · rw [if_pos hlow]
      exact wp_pure ⟨t₂, hroot₂, heq₂.trans heq₁, .inl ⟨rfl, um₂, hb₂⟩⟩
    rw [if_neg hlow, if_neg hlow, ← hroot₂]
    refine (hb₂.copyout sp' _).bind fun r m₃ hr => ?_
    obtain ⟨t₃, hroot₃, heq₃, ⟨rfl, hb₃⟩ | ⟨rfl, um₃, hcopy, hb₃⟩⟩ := hr
    · exact wp_pure ⟨t₃, hroot₃, heq₃.trans (heq₂.trans heq₁), .inl ⟨rfl, hb₃⟩⟩
    · rw [if_neg (by decide), hcopy]
      exact wp_pure ⟨t₃, hroot₃, heq₃.trans (heq₂.trans heq₁),
        .inr ⟨sp', um₃, by rw [hroot₃], rfl, hb₃⟩⟩

theorem Building.free {m₀ : PhysMem} (h : Building L env m t sz um)
    (heq : Set.EqOn m.page m₀.page {x | 0 < env.count x}) :
    Wp (procFreepagetable L t.root sz) (fun _ m' => AllocInv L m' env.count ∧
      Set.EqOn m'.page m₀.page {x | 0 < env.count x}) m :=
  (procFreepagetable_spec h.inv h.covers).mono fun _ _ hr => ⟨hr.1, hr.2.trans heq⟩

theorem procPagetable_building (h : AllocInv L m env.count) (trapframe : Nat) :
    Wp (procPagetable L trapframe) (fun r m' => Set.EqOn m'.page m.page {x | 0 < env.count x} ∧
      (r = none ∧ AllocInv L m' env.count ∨
       ∃ t, r = some t.root ∧ Building L env m' t 0 UserMem.empty ∧ t.Own env (pageCount 0))) m := by
  refine (procPagetable_spec h trapframe).mono fun r m₁ hr => ?_
  obtain ⟨heq, ⟨rfl, ha, _⟩ | ⟨t, rfl, hinv, hc, _⟩⟩ := hr
  · exact ⟨heq, .inl ⟨rfl, ha⟩⟩
  refine ⟨heq, .inr ⟨t, rfl, ⟨hinv, hc, hc.view_empty hinv.fits _⟩, fun v hv => ?_, fun v q hq => ?_⟩⟩
  · rw [show pageCount 0 = 0 by decide] at hv
    exact absurd hv (Nat.not_lt_zero v)
  · have hv := hc.not_valid (Nat.zero_le v) hq.1
    rw [hq.2.1] at hv
    cases hv

/-- Loading either leaves memory to the other owners or has built the memory of the program. -/
theorem loadProgram_spec (h : AllocInv L m env.count) (trapframe : Nat) :
    Wp (loadProgram L rd trapframe) (fun r m' => Set.EqOn m'.page m.page {x | 0 < env.count x} ∧
      (r = none ∧ AllocInv L m' env.count ∨
       ∃ t sz um, r = some (t.root, sz, rd.elf.entry) ∧
        (rd.read .elf 0 Elfhdr.bytes).length = Elfhdr.bytes ∧
        UserMem.putSegments rd rd.elf.phnum 0 (rd.elf.phoff % 2 ^ 32) (UserMem.empty, 0) = some (um, sz) ∧
        Building L env m' t sz um)) m := by
  unfold loadProgram
  by_cases hread : (rd.read .elf 0 Elfhdr.bytes).length ≠ Elfhdr.bytes
  · rw [if_pos hread]
    exact wp_pure ⟨fun _ _ => rfl, .inl ⟨rfl, h⟩⟩
  rw [if_neg hread]
  by_cases hmagic : rd.elf.magic ≠ ELF_MAGIC
  · rw [if_pos hmagic]
    exact wp_pure ⟨fun _ _ => rfl, .inl ⟨rfl, h⟩⟩
  rw [if_neg hmagic]
  refine (procPagetable_building h trapframe).bind fun r m₁ hr => ?_
  obtain ⟨heq₁, ⟨rfl, ha⟩ | ⟨t₁, rfl, hb₁, ho₁⟩⟩ := hr
  · exact wp_pure ⟨heq₁, .inl ⟨rfl, ha⟩⟩
  refine (loadSegments_spec hb₁ ho₁).bind fun r m₂ hr => ?_
  obtain ⟨t₂, hroot₂, heq₂, ⟨sz₂, um₂, rfl, hb₂⟩ | ⟨sz₂, um₂, rfl, hput, hb₂, _⟩⟩ := hr
  · rw [← hroot₂]
    refine (hb₂.free (heq₂.trans heq₁)).bind fun _ m₃ hr => ?_
    exact wp_pure ⟨hr.2, .inl ⟨rfl, hr.1⟩⟩
  · exact wp_pure ⟨heq₂.trans heq₁, .inr ⟨t₂, sz₂, um₂, by rw [hroot₂], not_not.mp hread, hput, hb₂⟩⟩

/-- The stack has a page at its end that can be written. -/
theorem Building.allocStack (h : Building L env m t sz um)
    (heq : Set.EqOn m.page m₀.page {x | 0 < env.count x}) :
    Wp (allocStack L t.root sz) (fun r m' => Set.EqOn m'.page m₀.page {x | 0 < env.count x} ∧
      (r = none ∧ AllocInv L m' env.count ∨
       ∃ t', t'.root = t.root ∧ r = some (pgRoundUp sz + 2 * PGSIZE) ∧
        Building L env m' t' (pgRoundUp sz + 2 * PGSIZE)
          (um.grow (pageCount sz) (pageCount sz + 2) true) ∧
        (t'.leaf (pageCount sz + 1)).has PTE_U = true ∧ (t'.leaf (pageCount sz + 1)).has PTE_W = true)) m := by
  have hup : pageCount (pgRoundUp sz) = pageCount sz := by rw [pgRoundUp_eq, pageCount_mul]
  have htop : pageCount (pgRoundUp sz + 2 * PGSIZE) = pageCount sz + 2 := by
    rw [pgRoundUp_eq, ← Nat.add_mul, pageCount_mul]
  have hb : Building L env m t (pgRoundUp sz) um := ⟨h.inv, by rw [hup]; exact h.covers, h.view⟩
  refine (hb.uvmalloc xperm_W).bind fun r m₁ hr => ?_
  obtain ⟨t₁, hroot₁, heq₁, hres⟩ := hr
  have heq₁' : Set.EqOn m₁.page m₀.page {x | 0 < env.count x} :=
    fun x hx => (heq₁ (.inl hx)).trans (heq hx)
  rcases hres with ⟨rfl, hb₁, _⟩ | ⟨um₁, sz₁, rfl, hgrow, _, hb₁, _, hfresh⟩
  · rw [← hroot₁]
    refine (hb₁.free heq₁').bind fun _ m₂ hr => ?_
    exact wp_pure ⟨hr.2, .inl ⟨rfl, hr.1⟩⟩
  · rw [UserMem.growTo, if_neg (by omega), if_neg (by simp only [PGSIZE]; omega), Option.some.injEq,
      Prod.mk.injEq, hup, htop] at hgrow
    obtain ⟨rfl, rfl⟩ := hgrow
    obtain ⟨hu, hw⟩ := hfresh (pageCount sz + 1) (by rw [hup]; omega) (by rw [htop]; omega)
    refine wp_pure ⟨heq₁', .inr ⟨t₁, hroot₁, rfl, hb₁, hu, ?_⟩⟩
    rw [hw]
    decide

theorem Building.finishImage {entry : Nat} (h : Building L env m t (pgRoundUp sz + 2 * PGSIZE) um)
    (heq : Set.EqOn m.page m₀.page {x | 0 < env.count x}) :
    Wp (finishImage L t.root (pgRoundUp sz + 2 * PGSIZE) entry argv) (fun r m' =>
      Set.EqOn m'.page m₀.page {x | 0 < env.count x} ∧
      (r = none ∧ AllocInv L m' env.count ∨
       ∃ t' sp um', r = some ⟨t'.root, pgRoundUp sz + 2 * PGSIZE, entry, sp, argv.length⟩ ∧
        um.pushStack (pgRoundUp sz + 2 * PGSIZE) argv = some um' ∧
        Building L env m' t' (pgRoundUp sz + 2 * PGSIZE) um')) m := by
  have hal : (pgRoundUp sz + 2 * PGSIZE) % PGSIZE = 0 := by
    rw [pgRoundUp_eq, ← Nat.add_mul, Nat.mul_mod_left]
  refine (pushStack_spec h hal (by omega)).bind fun r m₁ hr => ?_
  obtain ⟨t₁, hroot₁, heq₁, ⟨rfl, um₁, hb₁⟩ | ⟨sp, um₁, rfl, hpush, hb₁⟩⟩ := hr
  · rw [← hroot₁]
    refine (hb₁.free (heq₁.trans heq)).bind fun _ m₂ hr => ?_
    exact wp_pure ⟨hr.2, .inl ⟨rfl, hr.1⟩⟩
  · exact wp_pure ⟨heq₁.trans heq, .inr ⟨t₁, sp, um₁, rfl, hpush, hb₁⟩⟩

theorem programImage_eq {um' : UserMem} (hread : (rd.read .elf 0 Elfhdr.bytes).length = Elfhdr.bytes)
    (hput : UserMem.putSegments rd rd.elf.phnum 0 (rd.elf.phoff % 2 ^ 32) (UserMem.empty, 0) = some (um, sz))
    (hpush : (um.grow (pageCount sz) (pageCount sz + 2) true).pushStack (pgRoundUp sz + 2 * PGSIZE) argv =
      some um') : programImage rd argv = some (um', pgRoundUp sz + 2 * PGSIZE) := by
  rw [programImage, if_neg (not_not.mpr hread), hput]
  dsimp only
  rw [hpush]
  rfl

theorem loadImage_spec (h : AllocInv L m env.count) (trapframe : Nat) :
    Wp (loadImage L rd trapframe) (fun r m' => Set.EqOn m'.page m.page {x | 0 < env.count x} ∧
      (r = none ∧ AllocInv L m' env.count ∨
       ∃ t sz um, r = some (t.root, pgRoundUp sz + 2 * PGSIZE, rd.elf.entry) ∧
        (rd.read .elf 0 Elfhdr.bytes).length = Elfhdr.bytes ∧
        UserMem.putSegments rd rd.elf.phnum 0 (rd.elf.phoff % 2 ^ 32) (UserMem.empty, 0) = some (um, sz) ∧
        Building L env m' t (pgRoundUp sz + 2 * PGSIZE)
          (um.grow (pageCount sz) (pageCount sz + 2) true) ∧
        (t.leaf (pageCount sz + 1)).has PTE_U = true ∧ (t.leaf (pageCount sz + 1)).has PTE_W = true)) m := by
  refine (loadProgram_spec h trapframe).bind fun r m₁ hr => ?_
  obtain ⟨heq₁, ⟨rfl, ha⟩ | ⟨t, sz, um, rfl, hread, hput, hb⟩⟩ := hr
  · exact wp_pure ⟨heq₁, .inl ⟨rfl, ha⟩⟩
  refine (hb.allocStack heq₁).bind fun r m₂ hr => ?_
  obtain ⟨heq₂, ⟨rfl, ha⟩ | ⟨t₂, hroot₂, rfl, hb₂, hleaf⟩⟩ := hr
  · exact wp_pure ⟨heq₂, .inl ⟨rfl, ha⟩⟩
  · exact wp_pure ⟨heq₂, .inr ⟨t₂, sz, um, by rw [hroot₂], hread, hput, hb₂, hleaf⟩⟩

theorem execImage_spec (h : AllocInv L m env.count) (trapframe : Nat) :
    Wp (execImage L trapframe f argv) (fun r m' => Set.EqOn m'.page m.page {x | 0 < env.count x} ∧
      (r = none ∧ AllocInv L m' env.count ∨
       ∃ t im um, r = some im ∧ im.pagetable = t.root ∧ programImage (fileReads f) argv = some (um, im.sz) ∧
        Building L env m' t im.sz um)) m := by
  refine (loadImage_spec h trapframe).bind fun r m₁ hr => ?_
  obtain ⟨heq₁, ⟨rfl, ha⟩ | ⟨t, sz, um, rfl, hread, hput, hb, -⟩⟩ := hr
  · exact wp_pure ⟨heq₁, .inl ⟨rfl, ha⟩⟩
  refine (hb.finishImage heq₁).mono fun r m₂ hr => ?_
  obtain ⟨heq₂, ⟨rfl, ha⟩ | ⟨t₂, sp, um₂, rfl, hpush, hb₂⟩⟩ := hr
  · exact ⟨heq₂, .inl ⟨rfl, ha⟩⟩
  · exact ⟨heq₂, .inr ⟨t₂, _, um₂, rfl, rfl, programImage_eq hread hput hpush, hb₂⟩⟩

end Xv6
