import Xv6.AddressSpaces

/-! The segments of a program in the memory of the process that runs it. -/

namespace Xv6

open ActionRun Function StateProg

/-- The headers of type `ELF_PROG_LOAD` among the `n` headers from `off` on. -/
def segmentsFrom (f : File) : Nat → Nat → List Proghdr
  | 0, _ => []
  | n + 1, off =>
    if (proghdr f.data off).type = ELF_PROG_LOAD then
      proghdr f.data off :: segmentsFrom f n ((off + Proghdr.bytes) % 2 ^ 32)
    else segmentsFrom f n ((off + Proghdr.bytes) % 2 ^ 32)

def segments (f : File) : List Proghdr :=
  segmentsFrom f (elfhdr f.data).phnum ((elfhdr f.data).phoff % 2 ^ 32)

def Proghdr.Before (a b : Proghdr) : Prop := pgRoundUp (a.vaddr + a.memsz) ≤ b.vaddr

structure Proghdr.Inside (ph : Proghdr) (f : File) : Prop where
  aligned : ph.vaddr % PGSIZE = 0
  filesz : ph.filesz ≤ ph.memsz
  small : ph.filesz < 2 ^ 32
  inFile : ph.off + ph.filesz ≤ f.size

structure WellFormedElf (f : File) : Prop where
  size : f.size < 2 ^ 32
  inside : ∀ ph ∈ segments f, ph.Inside f
  ordered : (segments f).IsChain Proghdr.Before

structure Proghdr.LoadedIn (ph : Proghdr) (f : File) (um : UserMem) : Prop where
  bytes : ∀ i < ph.filesz, um.load (ph.vaddr + i) = some (f.data (ph.off + i))
  zeros : ∀ i, ph.filesz ≤ i → i < ph.memsz → um.load (ph.vaddr + i) = some 0
  writable : ∀ i < ph.memsz, um.mayWrite ((ph.vaddr + i) / PGSIZE) = true ↔ ph.flags / 2 % 2 = 1

variable {f : File} {rd : Reads} {ph : Proghdr} {um um' : UserMem} {v n i off sz : Nat}

theorem readi_inside (hsize : f.size < 2 ^ 32) (h : off + n ≤ f.size) :
    readi f (off % 2 ^ 32) n = Buffer.read f.data off n := by
  rw [Nat.mod_eq_of_lt (show off < 2 ^ 32 by omega), readi, if_neg (by omega),
    Nat.min_eq_left (by omega)]

theorem Buffer.write_read (b c : Buffer) (o k i : Nat) :
    Buffer.write b 0 (Buffer.read c o k) i = if i < k then c (o + i) else b i := by
  simp only [Buffer.write, Buffer.read, List.length_map, List.length_range, Nat.zero_le, true_and,
    Nat.zero_add, Nat.sub_zero]
  by_cases hi : i < k
  · simp [hi, List.getD]
  · simp [hi]

namespace UserMem

theorem load_congr {a : Nat} (h : um' (a / PGSIZE) = um (a / PGSIZE)) : um'.load a = um.load a := by
  rw [load, load, h]

theorem mayWrite_congr (h : um' v = um v) : um'.mayWrite v = um.mayWrite v := by
  rw [mayWrite, mayWrite, h]

theorem putSegment_outside {len k u : Nat} (hu : u < v ∨ v + k ≤ u) :
    um.putSegment v rd i off len k u = um u := by
  induction k with
  | zero => rfl
  | succ k ih =>
    rw [putSegment, putPage, update_of_ne (by omega)]
    exact ih (by omega)

theorem putSegment_inside {len k j : Nat} (hj : j < k) : um.putSegment v rd i off len k (v + j) =
    (um (v + j)).map (fun page => (Buffer.write page.1 0 (segmentPage rd i off len j), page.2)) := by
  induction k with
  | zero => omega
  | succ k ih =>
    rw [putSegment, putPage]
    by_cases he : j = k
    · subst j
      rw [update_self, putSegment_outside (.inr (Nat.le_refl _))]
    · rw [update_of_ne (by omega)]
      exact ih (by omega)

end UserMem

theorem write_segmentPage {len j o : Nat} (hsize : f.size < 2 ^ 32) (h : off + len ≤ f.size)
    (hj : j * PGSIZE < len) (ho : o < PGSIZE) (b : Buffer) :
    Buffer.write b 0 (segmentPage (fileReads f) i (off % 2 ^ 32) len j) o =
      if j * PGSIZE + o < len then f.data (off + (j * PGSIZE + o)) else b o := by
  have hoff : (off % 2 ^ 32 + j * PGSIZE) % 2 ^ 32 = (off + j * PGSIZE) % 2 ^ 32 := by
    rw [Nat.mod_add_mod]
  rw [segmentPage, hoff]
  change Buffer.write b 0 (readi f _ _) o = _
  by_cases hlast : len - j * PGSIZE < PGSIZE
  · rw [if_pos hlast, readi_inside hsize (by omega), Buffer.write_read, Nat.add_assoc]
    exact if_congr (by omega) rfl rfl
  · have hin : j * PGSIZE + o < len :=
      Nat.add_comm o _ ▸ Nat.add_lt_of_lt_sub (Nat.lt_of_lt_of_le ho (Nat.not_lt.mp hlast))
    rw [if_neg hlast, readi_inside hsize (by omega), Buffer.write_read, if_pos ho, if_pos hin, Nat.add_assoc]

theorem Proghdr.Inside.load (h : ph.Inside f) (hsize : f.size < 2 ^ 32) (hsz : pgRoundUp sz ≤ ph.vaddr)
    (hum : um' = (um.grow (pageCount sz) (pageCount (ph.vaddr + ph.memsz))
      ((flags2perm ph.flags).has PTE_W)).putSegment (ph.vaddr / PGSIZE) (fileReads f) i (ph.off % 2 ^ 32)
        ph.filesz ((ph.filesz + PGSIZE - 1) / PGSIZE)) : ph.LoadedIn f um' := by
  have hpage (i : Nat) (hi : i < ph.memsz) : (ph.vaddr + i) / PGSIZE = ph.vaddr / PGSIZE + i / PGSIZE ∧
      (ph.vaddr + i) % PGSIZE = i % PGSIZE ∧ pageCount sz ≤ ph.vaddr / PGSIZE + i / PGSIZE ∧
      ph.vaddr / PGSIZE + i / PGSIZE < pageCount (ph.vaddr + ph.memsz) := by
    have hal := h.aligned
    simp only [pageCount, pgRoundUp, PGSIZE] at hal hsz ⊢
    omega
  have hat (i : Nat) (hi : i < ph.memsz) : ∃ b, um' (ph.vaddr / PGSIZE + i / PGSIZE) =
        some (b, (flags2perm ph.flags).has PTE_W) ∧
      b (i % PGSIZE) = if i < ph.filesz then f.data (ph.off + i) else 0 := by
    obtain ⟨-, -, hlo, hhi⟩ := hpage i hi
    subst hum
    by_cases hj : i / PGSIZE < (ph.filesz + PGSIZE - 1) / PGSIZE
    · rw [UserMem.putSegment_inside hj, UserMem.grow, if_pos ⟨hlo, hhi⟩]
      refine ⟨_, rfl, ?_⟩
      have hlt : i / PGSIZE * PGSIZE < ph.filesz := by
        simp only [PGSIZE] at hj ⊢
        omega
      rw [write_segmentPage hsize h.inFile hlt (Nat.mod_lt _ (by decide)), Nat.div_add_mod']
    · rw [UserMem.putSegment_outside (.inr (by omega)), UserMem.grow, if_pos ⟨hlo, hhi⟩]
      refine ⟨_, rfl, ?_⟩
      rw [if_neg]
      simp only [PGSIZE] at hj
      omega
  have hw : (flags2perm ph.flags).has PTE_W = true ↔ ph.flags / 2 % 2 = 1 := by
    unfold flags2perm
    by_cases h1 : ph.flags % 2 = 1 <;> by_cases h2 : ph.flags / 2 % 2 = 1 <;>
      simp only [h1, h2, if_true, if_false] <;> decide
  refine ⟨fun i hi => ?_, fun i hlo hhi => ?_, fun i hi => ?_⟩
  · have hm : i < ph.memsz := Nat.lt_of_lt_of_le hi h.filesz
    obtain ⟨b, hb, hbi⟩ := hat i hm
    rw [UserMem.load, (hpage i hm).1, (hpage i hm).2.1, hb, Option.map_some]
    exact congrArg some (hbi.trans (if_pos hi))
  · obtain ⟨b, hb, hbi⟩ := hat i hhi
    rw [UserMem.load, (hpage i hhi).1, (hpage i hhi).2.1, hb, Option.map_some]
    exact congrArg some (hbi.trans (if_neg (by omega)))
  · obtain ⟨b, hb, -⟩ := hat i hi
    rw [UserMem.mayWrite, (hpage i hi).1, hb]
    exact hw

theorem Proghdr.LoadedIn.congr (h : ph.LoadedIn f um) (hfile : ph.filesz ≤ ph.memsz)
    (hsame : ∀ v < pageCount (ph.vaddr + ph.memsz), um' v = um v) : ph.LoadedIn f um' := by
  have hpage (i : Nat) (hi : i < ph.memsz) :
      um' ((ph.vaddr + i) / PGSIZE) = um ((ph.vaddr + i) / PGSIZE) := by
    apply hsame
    simp only [pageCount, pgRoundUp, PGSIZE]
    omega
  refine ⟨fun i hi => ?_, fun i hlo hhi => ?_, fun i hi => ?_⟩
  · rw [UserMem.load_congr (hpage i (by omega))]
    exact h.bytes i hi
  · rw [UserMem.load_congr (hpage i hhi)]
    exact h.zeros i hlo hhi
  · rw [UserMem.mayWrite_congr (hpage i hi)]
    exact h.writable i hi

theorem Proghdr.end_lt (hv : ph.vaddr < 2 ^ 64) (hm : ph.memsz < 2 ^ 64)
    (hwrap : ph.vaddr ≤ (ph.vaddr + ph.memsz) % 2 ^ 64) :
    (ph.vaddr + ph.memsz) % 2 ^ 64 = ph.vaddr + ph.memsz := by
  omega

namespace UserMem

theorem putSegments_loaded {sz' : Nat} (hsize : f.size < 2 ^ 32)
    (hin : ∀ ph ∈ segmentsFrom f n off, ph.Inside f)
    (hord : (segmentsFrom f n off).IsChain Proghdr.Before)
    (hfirst : ∀ ph ∈ (segmentsFrom f n off).head?, pgRoundUp sz ≤ ph.vaddr)
    (hput : putSegments (fileReads f) n i off (um, sz) = some (um', sz')) :
    sz ≤ sz' ∧ (∀ v < pageCount sz, um' v = um v) ∧
      ∀ ph ∈ segmentsFrom f n off, ph.LoadedIn f um' ∧ ph.vaddr + ph.memsz ≤ sz' := by
  induction n generalizing i off um sz with
  | zero =>
    cases hput
    exact ⟨Nat.le_refl _, fun _ _ => rfl, fun _ hph => by cases hph⟩
  | succ n ih =>
    rw [putSegments] at hput
    rw [segmentsFrom] at hin hord hfirst ⊢
    obtain ⟨hvlt, hmlt⟩ := proghdr_lt f.data off
    split at hput
    · cases hput
    next hread =>
    rw [proghdr_fileReads (not_not.mp hread)] at hput
    generalize proghdr f.data off = ph at *
    by_cases htype : ph.type = ELF_PROG_LOAD
    · rw [if_pos htype] at hin hord hfirst ⊢
      rw [if_neg (not_not_intro htype)] at hput
      have hph := hin ph (List.mem_cons_self ..)
      have hsz : pgRoundUp sz ≤ ph.vaddr := hfirst ph rfl
      by_cases hok : ph.ok = false
      · rw [if_pos hok] at hput
        cases hput
      rw [if_neg hok] at hput
      obtain ⟨hfile, hwrap, hal⟩ := Proghdr.ok_iff (Bool.not_eq_false _ ▸ hok)
      have hle : sz ≤ ph.vaddr + ph.memsz := by
        simp only [pgRoundUp, PGSIZE] at hsz
        omega
      rw [ph.end_lt hvlt hmlt hwrap, growTo, if_neg (by omega)] at hput
      by_cases hzero : ph.vaddr + ph.memsz = 0
      · rw [if_pos hzero] at hput
        cases hput
      rw [if_neg hzero, Nat.mod_eq_of_lt hph.small] at hput
      dsimp only at hput
      generalize hum : (um.grow _ _ _).putSegment _ _ _ _ _ _ = um₁ at hput
      have hhead : ∀ b ∈ (segmentsFrom f n ((off + Proghdr.bytes) % 2 ^ 32)).head?,
          pgRoundUp (ph.vaddr + ph.memsz) ≤ b.vaddr := (List.isChain_cons.mp hord).1
      obtain ⟨hmono, hsame, hrest⟩ := ih (fun b hb => hin b (List.mem_cons_of_mem _ hb))
        (List.isChain_cons.mp hord).2 hhead hput
      refine ⟨by omega, fun v hv => ?_, fun b hb => ?_⟩
      · have hv' : v < ph.vaddr / PGSIZE := by
          simp only [pageCount, pgRoundUp, PGSIZE] at hsz hv ⊢
          omega
        rw [hsame v (Nat.lt_of_lt_of_le hv (pageCount_mono hle)), ← hum,
          putSegment_outside (.inl hv'), grow, if_neg (by omega)]
      · rcases List.mem_cons.mp hb with rfl | hb
        · exact ⟨(hph.load hsize hsz hum.symm).congr hfile hsame, hmono⟩
        · exact hrest b hb
    · rw [if_neg htype] at hin hord hfirst ⊢
      rw [if_pos htype] at hput
      exact ih hin hord hfirst hput

theorem copyout_below {va fuel : Nat} (hv : v < va / PGSIZE) (src : List UInt8) :
    (copyout fuel um va src).1 v = um v := by
  induction fuel generalizing um va src with
  | zero => rfl
  | succ fuel ih =>
    rw [copyout]
    by_cases hs : src = []
    · rw [if_pos hs]
    rw [if_neg hs]
    by_cases hw : um.mayWrite (va / PGSIZE) = true
    · rw [if_pos hw]
      have hnext : v < (va / PGSIZE + 1) * PGSIZE / PGSIZE := by
        rw [Nat.mul_div_cancel _ (by decide)]
        omega
      rw [ih hnext, writePage, if_pos hw, putPage, update_of_ne (by omega)]
    · rw [if_neg hw]

variable {argv : List (List UInt8)}

theorem pushArgs_below {stackbase sp top : Nat} {ustack : List Nat} (hv : v < stackbase / PGSIZE)
    (h : um.pushArgs stackbase argv sp = some (um', top, ustack)) : um' v = um v := by
  induction argv generalizing um sp ustack with
  | nil =>
    cases h
    rfl
  | cons arg rest ih =>
    rw [pushArgs] at h
    generalize sp - (arg.length + 1) - (sp - (arg.length + 1)) % 16 = sp' at h
    by_cases hlow : sp' < stackbase
    · rw [if_pos hlow] at h
      cases h
    rw [if_neg hlow] at h
    have hv' : v < sp' / PGSIZE := Nat.lt_of_lt_of_le hv (Nat.div_le_div_right (by omega))
    have hbelow : (copyout (arg.length + 1) um sp' (arg ++ [0])).1 v = um v := copyout_below hv' _
    generalize copyout (arg.length + 1) um sp' (arg ++ [0]) = c at h hbelow
    obtain ⟨um₁, r⟩ := c
    dsimp only at h
    by_cases hr : r < 0
    · rw [if_pos hr] at h
      cases h
    · rw [if_neg hr] at h
      obtain ⟨⟨um₂, top₂, ustack₂⟩, hpush, hres⟩ := Option.map_eq_some_iff.mp h
      cases hres
      rw [ih hpush]
      exact hbelow

theorem pushStack_below (hv : v < (sz - PGSIZE) / PGSIZE) (h : um.pushStack sz argv = some um') :
    um' v = um.shrink (pageCount sz - 2) (pageCount sz - 1) v := by
  rw [pushStack] at h
  dsimp only at h
  split at h
  · cases h
  · next um₁ sp ustack hpush =>
    generalize sp - (argv.length + 1) * 8 - (sp - (argv.length + 1) * 8) % 16 = sp' at h
    by_cases hlow : sp' < sz - PGSIZE
    · rw [if_pos hlow] at h
      cases h
    rw [if_neg hlow] at h
    have hv' : v < sp' / PGSIZE := Nat.lt_of_lt_of_le hv (Nat.div_le_div_right (by omega))
    generalize wordBytes (ustack ++ [0]) = bytes at h
    have hbelow : (copyout bytes.length um₁ sp' bytes).1 v = um₁ v := copyout_below hv' _
    generalize copyout bytes.length um₁ sp' bytes = c at h hbelow
    obtain ⟨um₂, r⟩ := c
    by_cases hr : r < 0
    · rw [if_pos hr] at h
      cases h
    · rw [if_neg hr] at h
      cases h
      exact hbelow.trans (pushArgs_below hv hpush)

end UserMem

variable {L : Layout} {s w : KState} {p : Fin NPROC} {argv : List (List UInt8)}

theorem WellFormedElf.image (hf : WellFormedElf f) (himage : programImage (fileReads f) argv = some (um, sz)) :
    (∀ ph ∈ segments f, ph.LoadedIn f um) ∧
      ∀ a, sz - 2 * PGSIZE ≤ a → a < sz - PGSIZE → um.load a = none := by
  rw [programImage] at himage
  split at himage
  · cases himage
  next hread =>
  rw [elf_fileReads (not_not.mp hread)] at himage
  split at himage
  · cases himage
  next um₁ sz₁ hput =>
  obtain ⟨um₂, hpush, heq⟩ := Option.map_eq_some_iff.mp himage
  cases heq
  obtain ⟨-, -, hsegs⟩ := UserMem.putSegments_loaded hf.size hf.inside hf.ordered
    (fun ph _ => by rw [show pgRoundUp 0 = 0 by decide]; exact Nat.zero_le _) hput
  have hcount : pageCount (pgRoundUp sz₁ + 2 * PGSIZE) = pageCount sz₁ + 2 := by
    rw [pgRoundUp_eq, ← Nat.add_mul, pageCount_mul]
  have hbase : (pgRoundUp sz₁ + 2 * PGSIZE - PGSIZE) / PGSIZE = pageCount sz₁ + 1 := by
    rw [pgRoundUp_eq]
    simp only [PGSIZE]
    omega
  have hbelow (v : Nat) (hv : v ≤ pageCount sz₁) : um v =
      ((um₁.grow (pageCount sz₁) (pageCount sz₁ + 2) true).shrink (pageCount sz₁) (pageCount sz₁ + 1)) v := by
    have hb := UserMem.pushStack_below (v := v) (by rw [hbase]; omega) hpush
    rwa [hcount] at hb
  refine ⟨fun ph hph => ?_, fun a hlo hhi => ?_⟩
  · obtain ⟨hload, hend⟩ := hsegs ph hph
    have hlt := pageCount_mono hend
    refine hload.congr (hf.inside ph hph).filesz fun v hv => ?_
    rw [hbelow v (by omega), UserMem.shrink, if_neg (by omega), UserMem.grow, if_neg (by omega)]
  · have hv : a / PGSIZE = pageCount sz₁ := by
      rw [pgRoundUp_eq] at hlo hhi
      simp only [PGSIZE] at hlo hhi ⊢
      omega
    rw [UserMem.load, hv, hbelow _ (Nat.le_refl _), UserMem.shrink, if_pos (by omega)]
    rfl

/-- A program that `exec` has started finds its segments in memory, with the rights their headers
give, and cannot reach the page below its stack. -/
theorem exec_loads_segments (hg : Good L s) (hrun : (s.proc p).state = .runnable)
    (hf : WellFormedElf f) {r : Int} (hexec : exec L p f argv s = .ok (r, w)) (hr : 0 ≤ r) :
    ∃ u, w.users p = some u ∧ (∀ ph ∈ segments f, ph.LoadedIn f u.mem) ∧
      ∀ a, u.sz - 2 * PGSIZE ≤ a → a < u.sz - PGSIZE → u.mem.load a = none := by
  obtain ⟨⟨σ, hp⟩, hs⟩ := hg
  obtain ⟨-, -, -, ⟨hneg, -⟩ | ⟨-, ⟨um, sz⟩, himage, hus⟩⟩ := (hp.exec hs hrun f argv).ok hexec
  · omega
  · refine ⟨⟨um, sz⟩, ?_, hf.image himage⟩
    rw [hus, update_self]

/-- A program with a read-only segment, three bytes of the file and two zeros, and a writable one,
two bytes and a zero. -/
def tinyElf : File where
  size := 181
  data := [(0, ELF_MAGIC, 4), (24, 2, 8), (32, 64, 8), (56, 2, 2),
    (64, ELF_PROG_LOAD, 4), (68, 5, 4), (72, 176, 8), (96, 3, 8), (104, 5, 8),
    (120, ELF_PROG_LOAD, 4), (124, 6, 4), (128, 179, 8), (136, PGSIZE, 8), (152, 2, 8), (160, 3, 8),
    (176, 0x030201, 3), (179, 0x0504, 2)].foldl
      (fun b field => Buffer.setLE b field.1 field.2.1 field.2.2) fun _ => 0

def tinyArgs : List (List UInt8) := [[65, 66], [67]]

/-- The image of `tinyElf` can be built in the memory of the first process. -/
def tinyLoaded : { s // run (kstep smallKernel) (KState.start (booted smallKernel)) [.userinit] = .ok s ∧
    (s.proc 0).state = .runnable ∧ ∃ tf ∈ (s.proc 0).trapframe, Ends (fun r => ∃ im ∈ r.1, im.argc = 2)
      (fun _ => False) (execImage smallKernel tf tinyElf tinyArgs s.mem) } :=
  Ends.get (by decide +kernel)

theorem exists_tiny_image : ∃ s tf im m, Good smallKernel s ∧ (s.proc 0).state = .runnable ∧
    (s.proc 0).trapframe = some tf ∧ execImage smallKernel tf tinyElf tinyArgs s.mem = .ok (some im, m) ∧
    im.argc = 2 := by
  obtain ⟨s, hs, hrun, tf, htf, hends⟩ := tinyLoaded
  obtain ⟨⟨_, m⟩, himage, im, rfl, hargc⟩ := hends.exists_ok
  exact ⟨s, tf, im, m, Good.booted (boot_small (by simp)) hs, hrun, htf, himage, hargc⟩

theorem segments_tinyElf : segments tinyElf =
    [⟨ELF_PROG_LOAD, 5, 176, 0, 3, 5⟩, ⟨ELF_PROG_LOAD, 6, 179, PGSIZE, 2, 3⟩] := rfl

theorem wellFormedElf_tinyElf : WellFormedElf tinyElf := by
  refine ⟨by decide, ?_, ?_⟩
  · rw [segments_tinyElf]
    intro ph hph
    rcases List.mem_pair.mp hph with rfl | rfl
    · exact ⟨by decide, by decide, by decide, by decide⟩
    · exact ⟨by decide, by decide, by decide, by decide⟩
  · rw [segments_tinyElf]
    exact List.isChain_pair.mpr (show pgRoundUp 5 ≤ PGSIZE by decide)

theorem exec_loads_tiny_segments : ∃ s w u, Good smallKernel s ∧
    exec smallKernel 0 tinyElf tinyArgs s = .ok (2, w) ∧ w.users 0 = some u ∧
    (u.mem.load 2 = some 3 ∧ u.mem.mayWrite 0 = false) ∧
    u.mem.load (PGSIZE + 1) = some 5 ∧ u.mem.load (PGSIZE + 2) = some 0 ∧ u.mem.mayWrite 1 = true := by
  obtain ⟨s, tf, im, m, hg, hrun, htf, himage, hargc⟩ := exists_tiny_image
  obtain ⟨σ, hp⟩ := hg.procs
  obtain ⟨w, hexec⟩ := hp.exec_image hg.settled hrun htf himage
  rw [hargc] at hexec
  obtain ⟨u, hu, hsegs, -⟩ := exec_loads_segments hg hrun wellFormedElf_tinyElf hexec (by decide)
  have htext := hsegs _ List.mem_cons_self
  have hdata := hsegs _ (List.mem_cons_of_mem _ List.mem_cons_self)
  refine ⟨s, w, u, hg, hexec, hu, ⟨htext.bytes 2 (by decide), ?_⟩, hdata.bytes 1 (by decide),
    hdata.zeros 2 (by decide) (by decide), (hdata.writable 0 (by decide)).mpr (by decide)⟩
  exact Bool.eq_false_iff.mpr (mt (htext.writable 0 (by decide)).mp (by decide))

end Xv6
