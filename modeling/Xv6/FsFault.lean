import Xv6.FsReserve
import Xv6.PrivateMemory

/-! A `writei` whose source cannot be read to its end. `copyin` moves the bytes into the cached
block page by page, so those before the fault are there although the block is not logged. -/

namespace Xv6

open StateProg

namespace UserMem

def copyinPart : Nat → UserMem → Nat → Nat → List UInt8 × Int
  | 0, _, _, _ => ([], 0)
  | fuel + 1, um, srcva, len =>
    if len = 0 then ([], 0)
    else
      match um (srcva / PGSIZE) with
      | none => ([], -1)
      | some (page, _) =>
        let n := min (PGSIZE - srcva % PGSIZE) len
        let rest := copyinPart fuel um ((srcva / PGSIZE + 1) * PGSIZE) (len - n)
        (Buffer.read page (srcva % PGSIZE) n ++ rest.1, rest.2)

theorem copyin_eq (um : UserMem) (fuel srcva len : Nat) : copyin fuel um srcva len =
    if (copyinPart fuel um srcva len).2 = 0 then some (copyinPart fuel um srcva len).1 else none := by
  induction fuel generalizing srcva len with
  | zero => rfl
  | succ fuel ih =>
    unfold copyin copyinPart
    split
    · rfl
    · cases um (srcva / PGSIZE) with
      | none => rfl
      | some page =>
        dsimp only
        rw [ih]
        split <;> rfl

/-- The bytes at `va, va + 1, …` up to the first that cannot be read, at most `n`. -/
def readable (um : UserMem) : Nat → Nat → List UInt8
  | _, 0 => []
  | va, n + 1 =>
    match um.load va with
    | none => []
    | some b => b :: readable um (va + 1) n

variable {um : UserMem} {va n k : Nat}

theorem take_readable (um : UserMem) (va : Nat) (hk : k ≤ n) :
    (um.readable va n).take k = um.readable va k := by
  induction n generalizing va k with
  | zero =>
    obtain rfl : k = 0 := by omega
    rfl
  | succ n ih =>
    cases k with
    | zero => rfl
    | succ k =>
      unfold readable
      cases um.load va with
      | none => rfl
      | some b => exact congrArg (b :: ·) (ih (va + 1) (by omega))

theorem readable_add (h : (um.readable va k).length = k) (m : Nat) :
    um.readable va (k + m) = um.readable va k ++ um.readable (va + k) m := by
  induction k generalizing va with
  | zero => rw [Nat.zero_add]; rfl
  | succ k ih =>
    rw [readable] at h
    rw [Nat.add_right_comm, readable, readable.eq_2 um va k]
    cases hb : um.load va with
    | none =>
      rw [hb] at h
      cases h
    | some b =>
      rw [hb] at h
      rw [ih (Nat.succ.inj h), List.cons_append, Nat.add_right_comm va 1 k]
      rfl

theorem drop_readable {tot m : Nat} (htot : tot ≤ (um.readable va n).length) (hm : tot + m ≤ n) :
    ((um.readable va n).drop tot).take m = um.readable (va + tot) m := by
  have htake := take_readable um va (show tot ≤ n by omega)
  have hfull : (um.readable va tot).length = tot := by
    rw [← htake, List.length_take]
    omega
  have hsplit := readable_add hfull (n - tot)
  rw [Nat.add_sub_cancel' (by omega)] at hsplit
  rw [hsplit, List.drop_append, hfull, Nat.sub_self, List.drop_zero,
    List.drop_eq_nil_of_le (Nat.le_of_eq hfull), List.nil_append, take_readable um _ (by omega)]

theorem readable_page {page : Buffer} {w : Bool} (h : um (va / PGSIZE) = some (page, w))
    (hk : va % PGSIZE + k ≤ PGSIZE) : um.readable va k = Buffer.read page (va % PGSIZE) k := by
  induction k generalizing va with
  | zero => rfl
  | succ k ih =>
    have hload : um.load va = some (page (va % PGSIZE)) := by rw [load, h, Option.map_some]
    rw [readable, hload, Buffer.read, List.range_succ_eq_map, List.map_cons, List.map_map]
    dsimp only
    congr 1
    cases k with
    | zero => rfl
    | succ k =>
      have hdiv : (va + 1) / PGSIZE = va / PGSIZE := by
        simp only [PGSIZE] at hk ⊢
        omega
      have hmod : (va + 1) % PGSIZE = va % PGSIZE + 1 := by
        simp only [PGSIZE] at hk ⊢
        omega
      rw [ih (by rw [hdiv]; exact h) (by omega), hmod]
      apply List.map_congr_left
      intro j _
      simp only [Function.comp_apply, Nat.succ_eq_add_one, Nat.add_assoc, Nat.add_comm 1 j]

theorem copyinPart_eq {fuel : Nat} (hf : n ≤ fuel) : copyinPart fuel um va n =
    (um.readable va n, if (um.readable va n).length < n then -1 else 0) := by
  induction fuel generalizing va n with
  | zero =>
    obtain rfl : n = 0 := by omega
    rfl
  | succ fuel ih =>
    unfold copyinPart
    by_cases hn : n = 0
    · rw [if_pos hn, hn]
      rfl
    · rw [if_neg hn]
      have hpos : 0 < PGSIZE - va % PGSIZE := by
        have := Nat.mod_lt va (show 0 < PGSIZE by decide)
        omega
      cases hp : um (va / PGSIZE) with
      | none =>
        obtain ⟨n, rfl⟩ := Nat.exists_eq_succ_of_ne_zero hn
        have hload : um.load va = none := by rw [load, hp, Option.map_none]
        simp [readable, hload]
      | some page =>
        dsimp only
        have hk := Nat.min_le_left (PGSIZE - va % PGSIZE) n
        have hkn := Nat.min_le_right (PGSIZE - va % PGSIZE) n
        have hend : n - min (PGSIZE - va % PGSIZE) n = 0 ∨
            va + min (PGSIZE - va % PGSIZE) n = (va / PGSIZE + 1) * PGSIZE := by
          simp only [PGSIZE]
          omega
        have hpos' : 0 < min (PGSIZE - va % PGSIZE) n := by omega
        generalize min (PGSIZE - va % PGSIZE) n = k at hk hkn hend hpos'
        have hread := readable_page hp (show va % PGSIZE + k ≤ PGSIZE by omega)
        have hlen : (um.readable va k).length = k := by
          rw [hread, Buffer.read, List.length_map, List.length_range]
        have hsplit := readable_add hlen (n - k)
        rw [Nat.add_sub_cancel' hkn] at hsplit
        have hrest : um.readable ((va / PGSIZE + 1) * PGSIZE) (n - k) = um.readable (va + k) (n - k) := by
          rcases hend with h0 | h0
          · rw [h0]; rfl
          · rw [h0]
        rw [ih (by omega), hrest, hsplit, ← hread, List.length_append, hlen]
        congr 1
        exact if_congr (by omega) rfl rfl

end UserMem

namespace Fs

open BlockOwner

variable {sb : Superblock} {A : FsPanic → Prop} {s t : Fs} {ip off : Nat} {src : List UInt8} {n : Nat}

def KeepsAddrs (ip : Nat) (s t : Fs) : Prop :=
  ∀ bn, bn < MAXFILE → fileBlock s.data (s.din ip) bn ≠ 0 →
    fileBlock t.data (t.din ip) bn = fileBlock s.data (s.din ip) bn

theorem Wrote.keepsAddrs {w : Nat} {f : Nat → UInt8} (h : Wrote sb ip s t off w f)
    (ht : (s.din ip).type ≠ .none) : KeepsAddrs ip s t := by
  intro bn hbn hne
  have hown := (h.slots (ip, slotOf bn)).resolve_right
  rw [own_fileBlock (by rwa [inos_self]) hbn,
    own_fileBlock (by rw [inos_self, h.same.type]; exact ht) hbn, inos_self, inos_self] at hown
  exact hown fun hc => hne hc.2

/-- What the loop of `writei` at byte `tot` promises when only `src` of the `n` bytes can be
read: `w` of them are stored, and it stops in the block with the first unreadable byte or,
with a full disk, at the end of the file. -/
structure Faulted (sb : Superblock) (ip : Nat) (src : List UInt8) (tot off : Nat) (s : Fs) (r : Nat)
    (t : Fs) : Prop where
  lo : tot ≤ r
  hi : r ≤ src.length
  edge : r = tot ∨ (off + (r - tot)) % BSIZE = 0
  wrote : ∃ w, tot + w ≤ src.length ∧ r ≤ tot + w ∧
    Wrote sb ip s t off w (fun k => src.getD (tot + k) 0) ∧
    (tot + w = src.length ∧ src.length < r + (BSIZE - (off + (r - tot)) % BSIZE) ∨
      (s.din ip).size ≤ off + (r - tot))

theorem writeLoop_faulted (hsrc : src.length < n) : ∀ fuel tot off s,
    Blocks sb s.bitmap s.data (s.inos ip) → (s.din ip).type ≠ .none → tot ≤ src.length →
    off + (n - tot) ≤ MAXFILE * BSIZE → n - tot < fuel →
    WpUpTo A (writeLoop sb ip src n fuel tot off) (Faulted sb ip src tot off s) s := by
  intro fuel
  induction fuel with
  | zero =>
    intro tot off s _ _ _ _ hfuel
    omega
  | succ fuel ih =>
    intro tot off s h ht htot hfit hfuel
    have hbn : off / BSIZE < MAXFILE := by
      simp only [MAXFILE, NDIRECT, NINDIRECT, BSIZE] at hfit ⊢
      omega
    unfold writeLoop
    rw [if_pos (by omega)]
    refine (bmap_spec h ht hbn).bind fun r t hr => ?_
    by_cases hr0 : r = 0
    · rw [if_pos hr0]
      have hend : (s.din ip).size ≤ off := by
        -- the block is missing, so by the absence of holes the file ends before it
        by_contra hlt
        have hin : off / BSIZE * BSIZE < (s.inos ip ip).size := by
          rw [inos_self]
          exact Nat.lt_of_le_of_lt (Nat.div_mul_le_self off BSIZE) (by omega)
        have hne := h.full ip (by rwa [inos_self]) _ hin
        rw [inos_self] at hne
        exact hne ((hr.kept hne).2.symm.trans hr0)
      exact upTo_pure ⟨Nat.le_refl _, htot, .inl rfl, 0, htot, Nat.le_refl _,
        Wrote.none hr ht h off _, .inr (by omega)⟩
    · rw [if_neg hr0]
      dsimp only
      have hm := Nat.min_le_left (n - tot) (BSIZE - off % BSIZE)
      have hm' := Nat.min_le_right (n - tot) (BSIZE - off % BSIZE)
      have hends : min (n - tot) (BSIZE - off % BSIZE) = n - tot ∨
          min (n - tot) (BSIZE - off % BSIZE) = BSIZE - off % BSIZE := by omega
      have hmod := Nat.mod_lt off (show 0 < BSIZE by decide)
      generalize min (n - tot) (BSIZE - off % BSIZE) = m at hm hm' hends
      have hlen : ((src.drop tot).take m).length = min m (src.length - tot) := by
        rw [List.length_take, List.length_drop]
      have hin : off % BSIZE + ((src.drop tot).take m).length ≤ BSIZE := by omega
      have hchunk := (Wrote.chunk h ht hbn hr hr0 hin).congr fun k hk => getD_take_drop src hk
      generalize hb : (src.drop tot).take m = bytes at hlen hin hchunk
      apply upTo_bind_modify
      split
      · rename_i hcut
        refine upTo_pure ⟨Nat.le_refl _, htot, .inl rfl, _, by omega, by omega, hchunk, ?_⟩
        rw [Nat.sub_self, Nat.add_zero]
        exact .inl ⟨by omega, by omega⟩
      · rename_i hcut
        obtain hbm : bytes.length = m := by omega
        rw [hbm] at hchunk
        refine (ih (tot + m) (off + m) _ hchunk.blocks (hchunk.same.type ▸ ht) (by omega)
          (by omega) (by omega)).mono fun r' u hu => ?_
        obtain ⟨w, hw1, hw2, hw3, hstop⟩ := hu.wrote
        have hlo := hu.lo
        have hedge := hu.edge
        have hpos : off + m + (r' - (tot + m)) = off + (r' - tot) := by omega
        rw [hpos] at hedge hstop
        rw [hchunk.same.size] at hstop
        refine ⟨by omega, hu.hi, .inr ?_, m + w, by omega, by omega,
          hchunk.trans (hw3.congr fun k _ => ?_) (by omega), hstop.imp_left fun hk => ?_⟩
        · rcases hedge with hedge | hedge
          · simp only [BSIZE] at hends ⊢
            omega
          · exact hedge
        · rw [Nat.add_assoc]
        · exact ⟨by omega, hk.2⟩

/-- The file below its old size after a `writei` with result `r`: every byte that could be read
is stored, and `r` counts those in the blocks before the first unreadable byte. -/
structure CutShort (ip : Nat) (src : List UInt8) (off : Nat) (s : Fs) (r : Nat) (t : Fs) : Prop where
  le : r ≤ src.length
  addrs : KeepsAddrs ip s t
  bytes : ∀ o, o < (s.din ip).size → raw t.data (t.din ip) o =
    if off ≤ o ∧ o < off + src.length then src.getD (o - off) 0 else raw s.data (s.din ip) o
  edge : ∀ o, o < (s.din ip).size → off ≤ o → o < off + src.length →
    (o < off + r ↔ o / BSIZE < (off + src.length) / BSIZE)

theorem Faulted.cutShort {r : Nat} (h : Faulted sb ip src 0 off s r t)
    (hs : Blocks sb s.bitmap s.data (s.inos ip)) (ht : (s.din ip).type ≠ .none) :
    CutShort ip src off s r t := by
  obtain ⟨w, hw, hrw, hwrote, hstop⟩ := h.wrote
  have hedge := h.edge
  have hhi := h.hi
  simp only [Nat.sub_zero, Nat.zero_add] at hw hrw hwrote hstop hedge
  refine ⟨hhi, hwrote.keepsAddrs ht, fun o ho => ?_, fun o ho h1 h2 => ?_⟩
  · have hlt : off ≤ o ∧ o < off + src.length ↔ off ≤ o ∧ o < off + w := by omega
    rw [if_congr hlt rfl rfl]
    split
    · rename_i hin
      exact (hwrote.new o hin.1 hin.2).2
    · rename_i hout
      have hin : o / BSIZE * BSIZE < (s.inos ip ip).size := by
        rw [inos_self]
        exact Nat.lt_of_le_of_lt (Nat.div_mul_le_self o BSIZE) ho
      have hne := hs.full ip (by rwa [inos_self]) _ hin
      rw [inos_self] at hne
      exact hwrote.old o (hs.block_lt (by rwa [inos_self]) hin) hne hout
  · simp only [BSIZE] at hstop hedge ⊢
    omega

theorem writei_faulted (h : IsFile sb ip s) (hok : ¬ Refused ip off n s) (hsrc : src.length < n) :
    WpUpTo A (writei sb ip src off n)
      (fun r t => ∃ tot : Nat, r = tot ∧ CutShort ip src off s tot t) s := by
  unfold Refused at hok
  apply upTo_bind_get
  rw [if_neg (by omega), if_neg (by omega)]
  refine (writeLoop_faulted hsrc (n + 1) 0 off s h.blocks h.typed (Nat.zero_le _) (by omega)
    (by omega)).bind fun r t hr => ?_
  have hcut := hr.cutShort h.blocks h.typed
  -- the size and the copy on the disk do not matter for the blocks
  have hend (u : Fs) (hd : u.data = t.data) (ha : ∀ bn, fileBlock t.data (u.din ip) bn =
      fileBlock t.data (t.din ip) bn) : WpUpTo A (do
        iupdate ip
        pure (r : Int)) (fun r t => ∃ tot : Nat, r = tot ∧ CutShort ip src off s tot t) u := by
    apply upTo_bind_modify
    refine upTo_pure ⟨r, rfl, hcut.le, fun bn hbn hne => ?_, fun o ho => ?_, hcut.edge⟩
    · change fileBlock u.data (u.din ip) bn = _
      rw [hd, ha, hcut.addrs bn hbn hne]
    · change raw u.data (u.din ip) o = _
      rw [raw, hd, ha]
      exact hcut.bytes o ho
  apply upTo_bind_get
  split
  · apply upTo_bind_modify
    refine hend _ rfl fun bn => ?_
    rw [din_setDin]
    rfl
  · exact hend t rfl fun _ => rfl

end Fs

namespace FsTxn

section Model

variable (sb : Superblock) (a : Areas) (um : UserMem)

def writeLoopUser (ip addr n : Nat) : Nat → Nat → Nat → FsTxnM Nat
  | 0, tot, _ => pure tot
  | fuel + 1, tot, off => do
    if tot < n then
      let bno ← bmap sb a ip (off / BSIZE)
      if bno = 0 then pure tot
      else
        let m := min (n - tot) (BSIZE - off % BSIZE)
        let copied := UserMem.copyinPart m um (addr + tot) m
        onFs (modify fun s => s.setData bno ((s.data bno).write (off % BSIZE) copied.1))
        if copied.2 = -1 then pure tot
        else
          logWrite bno
          writeLoopUser ip addr n fuel (tot + m) (off + m)
    else pure tot

def writeiUser (ip addr off n : Nat) : FsTxnM Int := do
  let s ← onFs get
  if (s.din ip).size < off ∨ (off + n) % 2 ^ 32 < off then pure (-1)
  else if MAXFILE * BSIZE < off + n then pure (-1)
  else
    let tot ← writeLoopUser sb a um ip addr n (n + 1) 0 off
    let s ← onFs get
    if (s.din ip).size < off + tot then
      onFs (modify fun s => s.setDin ip { s.din ip with size := off + tot })
    else pure ()
    iupdate a ip
    pure tot

end Model

variable {sb : Superblock} {a : Areas} {um : UserMem} {s : Fs} {x y z : FsTxn} {ip addr n : Nat}
  {α : Type} {m : FsTxnM α}

theorem writeLoopUser_eq (fuel : Nat) : ∀ tot off, tot ≤ (um.readable addr n).length →
    writeLoopUser sb a um ip addr n fuel tot off =
      writeLoop sb a ip (um.readable addr n) n fuel tot off := by
  induction fuel with
  | zero => exact fun _ _ _ => rfl
  | succ fuel ih =>
    intro tot off htot
    unfold writeLoopUser writeLoop
    split
    · refine bind_congr fun bno => ?_
      split
      · rfl
      · dsimp only
        have hm := Nat.min_le_left (n - tot) (BSIZE - off % BSIZE)
        generalize min (n - tot) (BSIZE - off % BSIZE) = m at hm
        have hread := UserMem.drop_readable htot (show tot + m ≤ n by omega)
        rw [UserMem.copyinPart_eq (Nat.le_refl m), hread]
        refine bind_congr fun _ => ?_
        dsimp only
        by_cases hcut : (um.readable (addr + tot) m).length < m
        · rw [if_pos hcut, if_pos rfl, if_pos hcut]
        · rw [if_neg hcut, if_neg (by decide), if_neg hcut]
          refine bind_congr fun _ => ih _ _ ?_
          rw [← hread, List.length_take, List.length_drop] at hcut
          omega
    · rfl

theorem writeiUser_eq (off : Nat) : writeiUser sb a um ip addr off n =
    writei sb a ip (um.readable addr n) off n := by
  unfold writeiUser writei
  rw [writeLoopUser_eq _ _ _ (Nat.zero_le _)]

structure Frame (ip : Nat) (x y : FsTxn) : Prop where
  log : ∀ b ∈ x.logged, b ∈ y.logged
  indirect : (x.fs.din ip).addrs NDIRECT ≠ 0 →
    (y.fs.din ip).addrs NDIRECT = (x.fs.din ip).addrs NDIRECT

theorem Frame.refl (ip : Nat) (x : FsTxn) : Frame ip x x := ⟨fun _ hb => hb, fun _ => rfl⟩

theorem Frame.trans (h : Frame ip x y) (h' : Frame ip y z) : Frame ip x z where
  log b hb := h'.log b (h.log b hb)
  indirect hne := by
    have hxy := h.indirect hne
    rw [h'.indirect (hxy ▸ hne), hxy]

def Frames {α : Type} (ip : Nat) (m : FsTxnM α) : Prop :=
  ∀ x, WpUpTo (fun _ => True) m (fun _ y => Frame ip x y) x

theorem frames_pure (r : α) : Frames ip (pure r) := fun x => upTo_pure (Frame.refl ip x)

theorem Frames.bind {β : Type} {f : α → FsTxnM β} (h : Frames ip m) (hf : ∀ r, Frames ip (f r)) :
    Frames ip (m >>= f) := by
  intro x
  apply upTo_bind
  exact (h x).mono fun r y hy => (hf r y).mono fun _ z hz => hy.trans hz

theorem Frames.ite {c : Prop} [Decidable c] {m' : FsTxnM α} (h : Frames ip m) (h' : Frames ip m') :
    Frames ip (if c then m else m') := by
  split <;> assumption

theorem frames_get : Frames ip (onFs get) := fun x => Frame.refl ip x

theorem frames_logWrite (b : Nat) : Frames ip (logWrite b) :=
  fun _ => ⟨fun _ hb => List.mem_cons_of_mem b hb, fun _ => rfl⟩

theorem frames_modify {f : Fs → Fs}
    (hf : ∀ s, ((f s).din ip).addrs NDIRECT = (s.din ip).addrs NDIRECT) :
    Frames ip (onFs (modify f)) := fun x => ⟨fun _ hb => hb, fun _ => hf x.fs⟩

theorem frames_balloc : Frames ip (balloc sb a) := by
  intro x
  refine balloc_logs.mono fun r y hr => ⟨fun b hb => ?_, fun _ => ?_⟩
  · rcases hr.2 with hl | hl
    · rwa [hl]
    · rw [hl]
      exact List.mem_cons_of_mem _ (List.mem_cons_of_mem _ hb)
  · rw [Fs.din, hr.1]
    rfl

theorem frames_bmapIndirect : Frames ip (bmapIndirect sb a ip) := by
  intro x
  apply upTo_bind
  apply onFs_get
  split
  · rename_i hz
    apply upTo_bind
    have hb : Frames ip (balloc sb a) := frames_balloc
    refine (hb x).mono fun r y hy => ?_
    split
    · exact upTo_pure hy
    · exact ⟨hy.log, fun hne => absurd hz hne⟩
  · exact upTo_pure (Frame.refl ip x)

theorem frames_bmap (bn : Nat) : Frames ip (bmap sb a ip bn) := by
  refine frames_get.bind fun s => ?_
  by_cases hdir : bn < NDIRECT
  · rw [if_pos hdir]
    refine Frames.ite (frames_balloc.bind fun addr => (frames_pure 0).ite ?_) (frames_pure _)
    refine (frames_modify fun s => ?_).bind fun _ => frames_pure addr
    rw [addrs_setAddr, Function.update_of_ne (by omega)]
  · rw [if_neg hdir]
    refine Frames.ite (frames_bmapIndirect.bind fun ind => (frames_pure 0).ite ?_) fun _ => trivial
    refine frames_get.bind fun s => Frames.ite ?_ (frames_pure _)
    refine frames_balloc.bind fun addr => (frames_pure 0).ite ?_
    refine Frames.bind (frames_modify ?_) fun _ => (frames_logWrite ind).bind fun _ => frames_pure addr
    exact fun s => rfl

theorem frames_writeLoop (src : List UInt8) (fuel : Nat) : ∀ tot off,
    Frames ip (writeLoop sb a ip src n fuel tot off) := by
  induction fuel with
  | zero => exact fun tot _ => frames_pure tot
  | succ fuel ih =>
    intro tot off
    refine Frames.ite ((frames_bmap _).bind fun addr => (frames_pure tot).ite ?_) (frames_pure tot)
    refine Frames.bind (frames_modify ?_) fun _ => Frames.ite (frames_pure tot) ?_
    · exact fun s => rfl
    · exact (frames_logWrite addr).bind fun _ => ih _ _

theorem frames_writei (src : List UInt8) (off : Nat) : Frames ip (writei sb a ip src off n) := by
  have hlast (tot : Int) : Frames ip (do iupdate a ip; pure tot) :=
    fun x => ⟨fun _ hb => List.mem_cons_of_mem _ hb, fun _ => rfl⟩
  refine frames_get.bind fun s => (frames_pure _).ite ((frames_pure _).ite ?_)
  refine (frames_writeLoop src _ _ _).bind fun tot => frames_get.bind fun s => ?_
  refine Frames.ite ((frames_modify fun s => ?_).bind fun _ => hlast tot) (hlast tot)
  rw [Fs.din_setDin]

/-- The blocks as they are read later: a block that is not in the log may have left the cache,
now or after the commit, and then comes from the disk. A logged block is written there by the
commit. -/
def observed (disk : Nat → Buffer) (evicted : Nat → Bool) (y : FsTxn) : Nat → Buffer :=
  fun b => if evicted b ∧ b ∉ y.logged then disk b else y.fs.data b

def Clean (disk : Nat → Buffer) (x : FsTxn) : Prop := ∀ b, b ∉ x.logged → x.fs.data b = disk b

/-- A `writei` at `off` with result `r` left the rest of the old file alone, in the cache and on
the disk. -/
def Unchanged (disk : Nat → Buffer) (ip off : Nat) (x : FsTxn) (r : Int) (y : FsTxn) : Prop :=
  ∀ evicted o, o < (x.fs.din ip).size → ¬ (off ≤ o ∧ (o : Int) < off + r) →
    Fs.raw (observed disk evicted y) (y.fs.din ip) o = Fs.raw x.fs.data (x.fs.din ip) o

/-- What a fault leaves behind: the file block with the first unreadable byte already has the
readable bytes before it, as far as the file reaches. -/
def Agrees (ip off : Nat) (src : List UInt8) (s : Fs) : Prop :=
  ∀ o, off ≤ o → o < off + src.length → o / BSIZE = (off + src.length) / BSIZE →
    o < (s.din ip).size → src.getD (o - off) 0 = Fs.raw s.data (s.din ip) o

theorem observed_none (disk : Nat → Buffer) (y : FsTxn) :
    observed disk (fun _ => false) y = y.fs.data := by
  funext b
  exact if_neg fun h => Bool.noConfusion h.1

theorem observed_raw {disk : Nat → Buffer} (hclean : Clean disk x) (hf : Frame ip x y)
    (ha : Fs.KeepsAddrs ip x.fs y.fs) (evicted : Nat → Bool) {o : Nat} (ho : o / BSIZE < MAXFILE)
    (hne : Fs.fileBlock x.fs.data (x.fs.din ip) (o / BSIZE) ≠ 0) :
    Fs.raw (observed disk evicted y) (y.fs.din ip) o = Fs.raw y.fs.data (y.fs.din ip) o ∨
      Fs.raw (observed disk evicted y) (y.fs.din ip) o = Fs.raw x.fs.data (x.fs.din ip) o := by
  have hblock (b : Nat) : observed disk evicted y b = y.fs.data b ∨
      observed disk evicted y b = x.fs.data b := by
    unfold observed
    split
    · rename_i hb
      exact .inr (hclean b fun hx => hb.2 (hf.log b hx)).symm
    · exact .inl rfl
  have haddr := ha _ ho hne
  have hobs : Fs.fileBlock (observed disk evicted y) (y.fs.din ip) (o / BSIZE) =
      Fs.fileBlock x.fs.data (x.fs.din ip) (o / BSIZE) := by
    by_cases hdir : o / BSIZE < NDIRECT
    · rw [Fs.fileBlock_direct hdir] at haddr ⊢
      exact haddr
    · have hind : (x.fs.din ip).addrs NDIRECT ≠ 0 := by
        intro hz
        rw [Fs.fileBlock_indirect hdir, if_pos hz] at hne
        exact hne rfl
      rw [Fs.fileBlock_indirect hdir, Fs.fileBlock_indirect hdir, if_neg hind, hf.indirect hind,
        if_neg hind] at haddr
      rw [Fs.fileBlock_indirect hdir, Fs.fileBlock_indirect hdir, if_neg hind, hf.indirect hind,
        if_neg hind]
      rcases hblock ((x.fs.din ip).addrs NDIRECT) with hb | hb
      · rw [hb, haddr]
      · rw [hb]
  unfold Fs.raw
  rw [hobs, haddr]
  exact (hblock _).imp (fun hb => by rw [hb]) fun hb => by rw [hb]

/-- After a fault the rest of the file is unchanged exactly if the call was refused or the bytes
the fault left in the block were there before. -/
theorem write_fault_unchanged_iff {disk : Nat → Buffer} (h : Fs.IsFile sb ip x.fs)
    (hclean : Clean disk x) (um : UserMem) (addr : Nat) {off n : Nat} (hoff : off < 2 ^ 32)
    (hn : n < 2 ^ 32) (hfault : (um.readable addr n).length < n) (a : Areas) :
    ∃ r y, writeiUser sb a um ip addr off n x = .ok (r, y) ∧ r < n ∧
      (Unchanged disk ip off x r y ↔
        Fs.Refused ip off n x.fs ∨ Agrees ip off (um.readable addr n) x.fs) := by
  rw [writeiUser_eq]
  generalize um.readable addr n = src at hfault
  apply Fs.exists_of_never
  have hne {o : Nat} (ho : o < (x.fs.din ip).size) : o / BSIZE < MAXFILE ∧
      Fs.fileBlock x.fs.data (x.fs.din ip) (o / BSIZE) ≠ 0 := by
    have hin : o / BSIZE * BSIZE < (x.fs.inos ip ip).size := by
      rw [Fs.inos_self]
      exact Nat.lt_of_le_of_lt (Nat.div_mul_le_self o BSIZE) ho
    have hb := h.blocks.full ip (by rw [Fs.inos_self]; exact h.typed) _ hin
    rw [Fs.inos_self] at hb
    exact ⟨h.blocks.block_lt (by rw [Fs.inos_self]; exact h.typed) hin, hb⟩
  have hframe : Frames ip (writei sb a ip src off n) := frames_writei src off
  have herase : Erases FsTxn.fs (writei sb a ip src off n) _ := erases_writei ip src off n
  by_cases hbad : Fs.Refused ip off n x.fs
  · refine ((herase.upTo (Fs.writei_refused hoff hn hbad src)).and (hframe x)).mono ?_
    rintro r y ⟨⟨rfl, hy⟩, hf⟩
    refine ⟨by omega, iff_of_true (fun evicted o ho _ => ?_) (.inl hbad)⟩
    have hsame : Fs.KeepsAddrs ip x.fs y.fs := by
      rw [hy]
      exact fun _ _ _ => rfl
    have hobs := observed_raw hclean hf hsame evicted (hne ho).1 (hne ho).2
    rw [hy, or_self] at hobs
    rw [hy]
    exact hobs
  · refine ((herase.upTo (Fs.writei_faulted h hbad hfault)).and (hframe x)).mono ?_
    rintro r y ⟨⟨tot, rfl, hcut⟩, hf⟩
    have hle := hcut.le
    refine ⟨by omega, fun hun => .inr fun o h1 h2 hblk ho => ?_, fun hag evicted o ho hout => ?_⟩
    · have hedge := hcut.edge o ho h1 h2
      have hraw := hun (fun _ => false) o ho (by omega)
      rw [observed_none, hcut.bytes o ho, if_pos ⟨h1, h2⟩] at hraw
      exact hraw
    · refine (observed_raw hclean hf hcut.addrs evicted (hne ho).1 (hne ho).2).elim (fun hobs => ?_) id
      rw [hobs, hcut.bytes o ho]
      split
      · rename_i hin
        have hedge := hcut.edge o ho hin.1 hin.2
        have hmono := Nat.div_le_div_right (c := BSIZE) (Nat.le_of_lt hin.2)
        exact hag.resolve_left hbad o hin.1 hin.2 (by omega) ho
      · rfl

def after (m : FsM Int) (s : Fs) : Fs :=
  match m s with
  | .ok (_, t) => t
  | .error _ => s

theorem isFile_after_writei (h : Fs.IsFile sb ip s) (src : List UInt8) (off n : Nat) :
    Fs.IsFile sb ip (after (Fs.writei sb ip src off n) s) := by
  obtain ⟨r, t, hrun, ht⟩ := Fs.exists_of_never (h.writei src off n)
  rwa [after, hrun]

@[irreducible] def noted : Fs := after (Fs.writei Fs.mkfsSuper 3 [1, 2] 0 2) Fs.crowded

theorem noted_file : Fs.IsFile Fs.mkfsSuper 3 noted := by
  unfold noted
  exact isFile_after_writei Fs.crowded_file [1, 2] 0 2

theorem clean_self (s : Fs) : Clean s.data ⟨s, []⟩ := fun _ _ => rfl

def onePage : UserMem := fun v => if v = 0 then some (fun _ => 9, true) else none

theorem noted_fault_unchanged_iff : ∃ r y,
    writeiUser Fs.mkfsSuper ⟨32, 45⟩ onePage 3 4095 0 2 ⟨noted, []⟩ = .ok (r, y) ∧ r < (2 : Nat) ∧
      (Unchanged noted.data 3 0 ⟨noted, []⟩ r y ↔
        Fs.Refused 3 0 2 noted ∨ Agrees 3 0 (onePage.readable 4095 2) noted) :=
  write_fault_unchanged_iff noted_file (clean_self noted) onePage 4095 (by decide) (by decide)
    (by decide) _

/-- The last byte of the page is readable and the next one is not: `writei` reports 0 bytes, but
the first byte of the file has changed. -/
theorem write_fault_changes_file : Fs.IsFile Fs.mkfsSuper 3 noted ∧
    Clean noted.data ⟨noted, []⟩ ∧ (onePage.readable 4095 2).length < 2 ∧
    ∃ y, writeiUser Fs.mkfsSuper ⟨32, 45⟩ onePage 3 4095 0 2 ⟨noted, []⟩ = .ok (0, y) ∧
      ¬ Unchanged noted.data 3 0 ⟨noted, []⟩ 0 y := by
  refine ⟨noted_file, clean_self noted, by decide, ?_⟩
  have hold : Fs.raw noted.data (noted.din 3) 0 = 1 ∧ 0 < (noted.din 3).size := by decide +kernel
  obtain ⟨⟨_, y⟩, hrun, rfl, hnew⟩ := ActionRun.Ends.exists_ok
    (r := writeiUser Fs.mkfsSuper ⟨32, 45⟩ onePage 3 4095 0 2 ⟨noted, []⟩)
    (P := fun p => p.1 = 0 ∧ Fs.raw p.2.fs.data (p.2.fs.din 3) 0 = 9) (by decide +kernel)
  refine ⟨y, hrun, fun hun => ?_⟩
  have hsame := hun (fun _ => false) 0 hold.2 (by omega)
  rw [observed_none, hold.1] at hsame
  exact absurd (hnew.symm.trans hsame) (by decide)

end FsTxn

end Xv6
