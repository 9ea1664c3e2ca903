import Xv6.ActionRun
import Xv6.FsArray
import Xv6.FsLogged

/-! The transactions of `filewrite` against the reservation of `begin_op`. -/

namespace Xv6

open ActionRun Function StateProg

namespace FsTxn

section Model

variable (sb : Superblock) (a : Areas)

abbrev Others := Nat → Fs × Nat → Fs × Nat

def interleave (others : Others) (i off : Nat) : FsTxnM Nat := fun x =>
  .ok ((others i (x.fs, off)).2, { x with fs := (others i (x.fs, off)).1 })

/-- One transaction of `filewrite`: what `writei` returns and what was logged. -/
def writeOp (ip : Nat) (src : List UInt8) (off n1 : Nat) : FsTxnM (Int × List Nat) := do
  beginOp
  onFs (Fs.ilock ip)
  let r ← writei sb a ip src off n1
  onFs (Fs.iunlock ip)
  let log ← endOp
  pure (r, log)

/-- The loop of `filewrite` for an `FD_INODE` file. `off` is `f->off`, and `logs` are the logs
of the transactions so far. -/
def filewriteLoop (others : Others) (ip : Nat) (src : List UInt8) (n : Nat) :
    Nat → Nat → Nat → List (List Nat) → FsTxnM (Int × List (List Nat))
  | 0, _, _, logs => pure (-1, logs)
  | fuel + 1, i, off, logs => do
    if i < n then
      let off ← interleave others i off
      let n1 := min (n - i) ((MAXOPBLOCKS - 1 - 1 - 2) / 2 * BSIZE)
      let (r, log) ← writeOp sb a ip (src.drop i) off n1
      if r ≠ n1 then pure (-1, log :: logs)
      else filewriteLoop others ip src n fuel (i + n1) (off + r.toNat) (log :: logs)
    else pure (n, logs)

def filewrite (others : Others) (ip : Nat) (src : List UInt8) (n : Int) (off : Nat) :
    FsTxnM (Int × List (List Nat)) :=
  if n < 0 then pure (-1, []) else filewriteLoop sb a others ip src n.toNat (n.toNat + 1) 0 off []

end Model

variable {sb : Superblock} {a : Areas} {x y : FsTxn} {ip r n off : Nat} {c : List Nat}
  {Q : Fs → FsTxn → Prop}

/-- The blocks an inode's indirect block brings into the log, and those of the list `c`. -/
def Covered (a : Areas) (ip : Nat) (c : List Nat) (x : FsTxn) : Prop :=
  ∀ b ∈ x.logged, b ∈ c ∨ ((x.fs.din ip).addrs NDIRECT ≠ 0 ∧
    (b = (x.fs.din ip).addrs NDIRECT ∨ b = a.bblock ((x.fs.din ip).addrs NDIRECT)))

theorem onFs_get {A : FsPanic → Prop} (h : Q x.fs x) :
    WpUpTo A (onFs get) Q x := h

theorem balloc_logs : WpUpTo (fun _ => True) (balloc sb a) (fun r y => y.fs.itable = x.fs.itable ∧
    (y.logged = x.logged ∨ y.logged = r :: a.bblock r :: x.logged)) x := by
  refine upTo_bind (onFs_get ?_)
  cases (List.range sb.size).find? (fun b => !x.fs.bitmap b) with
  | none => exact upTo_pure ⟨rfl, .inl rfl⟩
  | some b => exact ⟨rfl, .inr rfl⟩

theorem onFs_modify {f : Fs → Fs} {Q : Unit → FsTxn → Prop} {A : FsPanic → Prop}
    (h : Q () { x with fs := f x.fs }) : WpUpTo A (onFs (modify f)) Q x := h

theorem Covered.allocated (h : Covered a ip c x)
    (hi : (y.fs.din ip).addrs NDIRECT = (x.fs.din ip).addrs NDIRECT)
    (hl : y.logged = x.logged ∨ y.logged = r :: a.bblock r :: x.logged) :
    Covered a ip (r :: a.bblock r :: c) y := by
  intro b hb
  rw [hi]
  rcases hl with hl | hl
  · rw [hl] at hb
    exact (h b hb).imp_left fun hc => List.mem_cons_of_mem _ (List.mem_cons_of_mem _ hc)
  · rw [hl, List.mem_cons, List.mem_cons] at hb
    rw [List.mem_cons, List.mem_cons]
    rcases hb with rfl | rfl | hb
    · exact .inl (.inl rfl)
    · exact .inl (.inr (.inl rfl))
    · exact (h b hb).imp_left fun hc => .inr (.inr hc)

theorem Covered.indirect (h : Covered a ip c x) (hr : r ≠ 0) (hz : (x.fs.din ip).addrs NDIRECT = 0)
    (hi : (y.fs.din ip).addrs NDIRECT = r)
    (hl : y.logged = x.logged ∨ y.logged = r :: a.bblock r :: x.logged) : Covered a ip c y := by
  have hold : ∀ b ∈ x.logged, b ∈ c := fun b hb => (h b hb).resolve_right fun hc => hc.1 hz
  intro b hb
  rw [hi]
  rcases hl with hl | hl
  · rw [hl] at hb
    exact .inl (hold b hb)
  · rw [hl, List.mem_cons, List.mem_cons] at hb
    rcases hb with hb | hb | hb
    · exact .inr ⟨hr, .inl hb⟩
    · exact .inr ⟨hr, .inr hb⟩
    · exact .inl (hold b hb)

theorem addrs_setAddr (s : Fs) (ip k addr : Nat) :
    ((s.setAddr ip k addr).din ip).addrs = update (s.din ip).addrs k addr := by
  simp only [Fs.setAddr, Fs.setDin, Fs.setEntry, Fs.din, Dinode.setAddr, update_self]

theorem bmapIndirect_logs : WpUpTo (fun _ => True) (bmapIndirect sb a ip) (fun r y =>
    ((x.fs.din ip).addrs NDIRECT ≠ 0 → y = x) ∧
    (r = 0 → ∀ c, Covered a ip c x → Covered a ip (0 :: a.bblock 0 :: c) y) ∧
    (r ≠ 0 → (y.fs.din ip).addrs NDIRECT = r ∧ ∀ c, Covered a ip c x → Covered a ip c y)) x := by
  apply upTo_bind
  apply onFs_get
  split
  · rename_i hz
    refine balloc_logs.bind fun r y hr => ?_
    have hdin : y.fs.din ip = x.fs.din ip := congrArg (fun t => (t ip).din) hr.1
    split
    · subst r
      refine upTo_pure ⟨fun hne => absurd hz hne, fun _ c hc => ?_, fun h => absurd rfl h⟩
      exact hc.allocated (by rw [hdin]) hr.2
    · apply upTo_bind
      apply onFs_modify
      have haddr : ((y.fs.setAddr ip NDIRECT r).din ip).addrs NDIRECT = r := by
        rw [addrs_setAddr, update_self]
      refine upTo_pure ⟨fun hne => absurd hz hne, fun h => absurd h ‹_›, fun _ => ⟨haddr, ?_⟩⟩
      exact fun c hc => hc.indirect ‹_› hz haddr hr.2
  · exact upTo_pure ⟨fun _ => rfl, fun h => absurd h ‹_›, fun _ => ⟨rfl, fun c hc => hc⟩⟩

theorem Covered.of_mem {b : Nat} (h : Covered a ip c x)
    (hi : (y.fs.din ip).addrs NDIRECT = (x.fs.din ip).addrs NDIRECT)
    (hl : y.logged = b :: x.logged)
    (hb : b ∈ c ∨ (x.fs.din ip).addrs NDIRECT ≠ 0 ∧ b = (x.fs.din ip).addrs NDIRECT) :
    Covered a ip c y := by
  intro d hd
  rw [hi]
  rw [hl, List.mem_cons] at hd
  rcases hd with rfl | hd
  · exact hb.imp_right fun hb => ⟨hb.1, .inl hb.2⟩
  · exact h d hd

theorem bmap_logs (bn : Nat) : WpUpTo (fun _ => True) (bmap sb a ip bn) (fun r y =>
    (Fs.fileBlock x.fs.data (x.fs.din ip) bn ≠ 0 → y = x) ∧
    ∀ c, Covered a ip c x → Covered a ip (r :: a.bblock r :: c) y) x := by
  have hsame (r : Nat) (c : List Nat) (hc : Covered a ip c x) :
      Covered a ip (r :: a.bblock r :: c) x := hc.allocated rfl (.inl rfl)
  apply upTo_bind
  apply onFs_get
  by_cases hdir : bn < NDIRECT
  · rw [if_pos hdir, Fs.fileBlock_direct hdir]
    split
    · rename_i hz
      refine balloc_logs.bind fun r y hr => ?_
      have hdin : y.fs.din ip = x.fs.din ip := congrArg (fun t => (t ip).din) hr.1
      split
      · subst r
        refine upTo_pure ⟨fun hne => absurd hz hne, fun c hc => hc.allocated (by rw [hdin]) hr.2⟩
      · apply upTo_bind
        apply onFs_modify
        refine upTo_pure ⟨fun hne => absurd hz hne, fun c hc => hc.allocated ?_ hr.2⟩
        rw [addrs_setAddr, update_of_ne (by omega), hdin]
    · exact upTo_pure ⟨fun _ => rfl, fun c hc => hsame _ c hc⟩
  · rw [if_neg hdir, Fs.fileBlock_indirect hdir]
    by_cases hj : bn - NDIRECT < NINDIRECT
    · rw [if_pos hj]
      refine bmapIndirect_logs.bind fun ind y ⟨hkept, hzero, hcov⟩ => ?_
      split
      · subst ind
        refine upTo_pure ⟨fun hne => ?_, hzero rfl⟩
        exact hkept fun hz => hne (if_pos hz)
      · rename_i hind
        obtain ⟨haddr, hcov⟩ := hcov hind
        apply upTo_bind
        apply onFs_get
        split
        · rename_i hz
          have hfresh : ¬ (if (x.fs.din ip).addrs NDIRECT = 0 then 0
              else Fs.word (x.fs.data ((x.fs.din ip).addrs NDIRECT)) (bn - NDIRECT)) ≠ 0 := by
            intro hne
            split at hne
            · exact hne rfl
            · rename_i hx
              rw [hkept hx] at hz haddr
              rw [haddr] at hne
              exact hne hz
          refine balloc_logs.bind fun r z hr => ?_
          have hdin : z.fs.din ip = y.fs.din ip := congrArg (fun t => (t ip).din) hr.1
          split
          · subst r
            exact upTo_pure ⟨fun hne => absurd hne hfresh, fun c hc =>
              (hcov c hc).allocated (by rw [hdin]) hr.2⟩
          · apply upTo_bind
            apply onFs_modify
            apply upTo_bind_modify
            refine upTo_pure ⟨fun hne => absurd hne hfresh, fun c hc => ?_⟩
            have hz' := (hcov c hc).allocated (y := z) (by rw [hdin]) hr.2
            exact hz'.of_mem rfl rfl (.inr (by rw [hdin, haddr]; exact ⟨hind, rfl⟩))
        · refine upTo_pure ⟨fun hne => ?_, fun c hc => (hcov c hc).allocated rfl (.inl rfl)⟩
          exact hkept fun hz => hne (if_pos hz)
    · rw [if_neg hj]
      exact upTo_throw trivial

def touched (off m : Nat) : Nat := if m = 0 then 0 else (off % BSIZE + m - 1) / BSIZE + 1

theorem touched_step {m k : Nat} (hm : m ≠ 0) (hk : k = min m (BSIZE - off % BSIZE)) :
    touched off m = touched (off + k) (m - k) + 1 := by
  unfold touched
  simp only [BSIZE] at hk ⊢
  split <;> split <;> omega

theorem Covered.round {bn : Nat} (hc : Covered a ip c x)
    (hkept : Fs.fileBlock x.fs.data (x.fs.din ip) bn ≠ 0 → y = x)
    (hcov : ∀ c, Covered a ip c x → Covered a ip (r :: a.bblock r :: c) y) :
    ∃ c', Covered a ip c' y ∧ r ∈ c' ∧ c'.length ≤ c.length + 2 ∧
      (Fs.fileBlock x.fs.data (x.fs.din ip) bn ≠ 0 → c'.length ≤ c.length + 1) := by
  by_cases hb : Fs.fileBlock x.fs.data (x.fs.din ip) bn ≠ 0
  · rw [hkept hb]
    refine ⟨r :: c, fun b hb => ?_, List.mem_cons_self, Nat.le_succ _, fun _ => Nat.le_refl _⟩
    exact (hc b hb).imp_left (List.mem_cons_of_mem r)
  · exact ⟨_, hcov c hc, List.mem_cons_self, Nat.le_refl _, fun h => absurd h hb⟩

theorem writeLoop_logs (src : List UInt8) : ∀ fuel tot off (x : FsTxn) c,
    Covered a ip c x → WpUpTo (fun _ => True) (writeLoop sb a ip src n fuel tot off) (fun _ y =>
      ∃ c', Covered a ip c' y ∧ c'.length ≤ c.length + 2 * touched off (n - tot) ∧
        (tot < n → Fs.fileBlock x.fs.data (x.fs.din ip) (off / BSIZE) ≠ 0 →
          c'.length + 1 ≤ c.length + 2 * touched off (n - tot))) x := by
  intro fuel
  induction fuel with
  | zero =>
    intro tot off x c hc
    refine upTo_pure ⟨c, hc, by omega, fun hlt _ => ?_⟩
    rw [touched_step (by omega) rfl]
    omega
  | succ fuel ih =>
    intro tot off x c hc
    unfold writeLoop
    by_cases hlt : tot < n
    · rw [if_pos hlt, touched_step (by omega) rfl]
      refine (bmap_logs (off / BSIZE)).bind fun r y ⟨hkept, hcov⟩ => ?_
      obtain ⟨c', hc', hr, hlen, hlen'⟩ := hc.round hkept hcov
      split
      · exact upTo_pure ⟨c', hc', by omega, fun _ hb => by have := hlen' hb; omega⟩
      · apply upTo_bind
        apply onFs_modify
        split
        · exact upTo_pure ⟨c', hc', by omega, fun _ hb => by have := hlen' hb; omega⟩
        · apply upTo_bind_modify
          refine (ih _ _ _ c' ?_).mono fun _ z hz => ?_
          · exact Covered.of_mem (x := y) hc' rfl rfl (.inl hr)
          · obtain ⟨d, hd, hdlen, -⟩ := hz
            rw [Nat.sub_add_eq] at hdlen
            exact ⟨d, hd, by omega, fun _ hb => by have := hlen' hb; omega⟩
    · rw [if_neg hlt]
      exact upTo_pure ⟨c, hc, by omega, fun h => absurd h hlt⟩

theorem Covered.dedup_length (h : Covered a ip c x) : x.logged.dedup.length ≤ c.length + 2 := by
  have hsub : x.logged.dedup ⊆ (x.fs.din ip).addrs NDIRECT ::
      a.bblock ((x.fs.din ip).addrs NDIRECT) :: c := by
    intro b hb
    rw [List.mem_cons, List.mem_cons]
    rcases h b (List.mem_dedup.mp hb) with hc | ⟨-, hc | hc⟩
    · exact .inr (.inr hc)
    · exact .inl hc
    · exact .inr (.inl hc)
  exact (x.logged.nodup_dedup.subperm hsub).length_le

/-- Three blocks of bytes into a file without a hole: the block in which an unaligned write
starts is there, so at most three blocks are new. -/
theorem writei_logs (src : List UInt8) (hn : n ≤ 3 * BSIZE) (hx : x.logged = [])
    (hfull : ∀ bn, bn * BSIZE < (x.fs.din ip).size →
      Fs.fileBlock x.fs.data (x.fs.din ip) bn ≠ 0) :
    WpUpTo (fun _ => True) (writei sb a ip src off n)
      (fun _ y => y.logged.dedup.length ≤ MAXOPBLOCKS) x := by
  have hempty : x.logged.dedup.length ≤ MAXOPBLOCKS := by
    rw [hx]
    decide
  apply upTo_bind
  apply onFs_get
  split
  · exact upTo_pure hempty
  · rename_i hok
    split
    · exact upTo_pure hempty
    · apply upTo_bind
      have hc : Covered a ip [] x := by
        intro b hb
        rw [hx] at hb
        cases hb
      refine (writeLoop_logs src (n + 1) 0 off x [] hc).mono fun tot y hy => ?_
      obtain ⟨c, hc, hlen, hfirst⟩ := hy
      have hlen : c.length ≤ 7 := by
        rw [Nat.sub_zero, List.length_nil, Nat.zero_add] at hlen hfirst
        by_cases hoff : off % BSIZE = 0
        · have ht : touched off n ≤ 3 := by
            unfold touched
            simp only [BSIZE] at hoff hn ⊢
            split <;> omega
          omega
        · have ht : touched off n ≤ 4 := by
            unfold touched
            simp only [BSIZE] at hn ⊢
            split <;> omega
          have hstart : off / BSIZE * BSIZE < (x.fs.din ip).size := by
            simp only [BSIZE] at hoff ⊢
            omega
          by_cases hpos : 0 < n
          · have := hfirst hpos (hfull _ hstart)
            omega
          · have h0 : touched off n = 0 := if_pos (by omega)
            omega
      have hend (z : FsTxn) (hz : Covered a ip c z) : WpUpTo (fun _ => True) (do
          iupdate a ip
          pure (tot : Int)) (fun _ y => y.logged.dedup.length ≤ MAXOPBLOCKS) z := by
        have hz' : Covered a ip (a.iblock ip :: c) z :=
          fun b hb => (hz b hb).imp_left (List.mem_cons_of_mem _)
        apply upTo_bind
        have hlog := hz'.of_mem (y := { z with
          fs := z.fs.setDinode ip (z.fs.din ip), logged := a.iblock ip :: z.logged }) rfl rfl
          (.inl List.mem_cons_self)
        have hle := hlog.dedup_length
        rw [List.length_cons] at hle
        exact Nat.le_trans hle (by simp only [MAXOPBLOCKS]; omega)
      apply upTo_bind
      apply onFs_get
      split
      · apply upTo_bind
        apply onFs_modify
        refine hend _ fun b hb => ?_
        simp only [Fs.din_setDin]
        exact hc b hb
      · exact hend y hc

def loaded (s : Fs) (ip : Nat) : Dinode := if (s.itable ip).valid then s.din ip else s.dinode ip

structure Ready (sb : Superblock) (ip : Nat) (s : Fs) : Prop where
  ref : 0 < (s.itable ip).ref
  unlocked : (s.itable ip).locked = false
  blocks : Fs.Blocks sb s.bitmap s.data (update s.dinode ip (loaded s ip))
  typed : (loaded s ip).type ≠ .none

structure Held (sb : Superblock) (ip : Nat) (s : Fs) : Prop where
  ref : 0 < (s.itable ip).ref
  valid : (s.itable ip).valid = true
  locked : (s.itable ip).locked = true
  blocks : Fs.Blocks sb s.bitmap s.data (s.inos ip)
  typed : (s.din ip).type ≠ .none

variable {s : Fs} {A : FsPanic → Prop}

theorem Ready.ilock (h : Ready sb ip s) : WpUpTo A (Fs.ilock ip) (fun _ t => Held sb ip t) s := by
  have href := h.ref
  have hb := h.blocks
  have ht := h.typed
  unfold loaded at hb ht
  apply upTo_bind_get
  rw [if_neg (by omega)]
  apply upTo_bind
  apply upTo_bind_get
  rw [h.unlocked, if_neg (by decide)]
  apply upTo_modify
  split
  · rename_i hv
    rw [if_pos hv] at hb ht
    apply upTo_pure
    constructor <;> simp only [Fs.setEntry, Fs.inos, Fs.din, update_self]
    · exact href
    · exact hv
    · exact hb
    · exact ht
  · rename_i hv
    rw [if_neg hv] at hb ht
    apply upTo_bind_modify
    simp only [Fs.setEntry]
    rw [if_neg ht]
    apply upTo_pure
    constructor <;> simp only [Fs.inos, Fs.din, update_self]
    · exact href
    · exact hb
    · exact ht

theorem Held.writei (h : Held sb ip s) (src : List UInt8) (off n : Nat) :
    WpUpTo A (Fs.writei sb ip src off n) (fun _ t => Held sb ip t) s := by
  refine (Fs.writei_spec h.blocks h.typed src off n).mono ?_
  rintro r t (⟨-, rfl, -⟩ | ⟨m, w, -, -, -, -, -, -, hw⟩)
  · exact h
  · have hentry : t.itable ip = { s.itable ip with din := t.din ip } :=
      (congrFun hw.itable ip).trans (update_self ..)
    have hfile := hw.isFile h.typed
    refine ⟨?_, ?_, ?_, hfile.blocks, hfile.typed⟩
    · rw [hentry]; exact h.ref
    · rw [hentry]; exact h.valid
    · rw [hentry]; exact h.locked

theorem Held.iunlock (h : Held sb ip s) : WpUpTo A (Fs.iunlock ip) (fun _ t => Ready sb ip t) s := by
  have href := h.ref
  have hb := h.blocks
  have ht := h.typed
  have hl := h.locked
  apply upTo_bind_get
  rw [if_neg (by rw [hl]; simp; omega)]
  apply upTo_modify
  constructor <;> simp only [loaded, Fs.setEntry, Fs.din, update_self, h.valid, if_true]
  · exact href
  · exact hb
  · exact ht

theorem onFs_upTo {α : Type} {m : FsM α} {Q : α → Fs → Prop} (h : WpUpTo A m Q x.fs) :
    WpUpTo A (onFs m) (fun r y => Q r y.fs ∧ y.logged = x.logged) x := by
  unfold WpUpTo onFs at *
  cases hr : m x.fs with
  | error e => rwa [hr] at h
  | ok r =>
    rw [hr] at h
    exact ⟨h, rfl⟩

theorem writeOp_spec (h : Ready sb ip x.fs) (src : List UInt8) (off : Nat) {n1 : Nat}
    (hn : n1 ≤ 3 * BSIZE) : WpUpTo A (writeOp sb a ip src off n1)
      (fun r y => Ready sb ip y.fs ∧ r.2.dedup.length ≤ MAXOPBLOCKS) x := by
  apply upTo_bind_modify
  refine (onFs_upTo (x := { x with logged := [] }) h.ilock).bind fun _ y ⟨hy, hlog⟩ => ?_
  have hfull : ∀ bn, bn * BSIZE < (y.fs.din ip).size →
      Fs.fileBlock y.fs.data (y.fs.din ip) bn ≠ 0 := by
    have hf := hy.blocks.full ip
    rw [Fs.inos_self] at hf
    exact hf hy.typed
  refine (((erases_writei ip src off n1).upTo (hy.writei src off n1)).and
    (writei_logs src hn hlog hfull)).bind fun r z ⟨hz, hlen⟩ => ?_
  refine (onFs_upTo hz.iunlock).bind fun _ w ⟨hw, hlogw⟩ => ?_
  refine ⟨hw, ?_⟩
  rw [hlogw]
  exact hlen

theorem filewriteLoop_spec {others : Others}
    (hothers : ∀ i s off, Ready sb ip s → Ready sb ip (others i (s, off)).1) (src : List UInt8) :
    ∀ fuel i off logs (x : FsTxn), n - i < fuel → Ready sb ip x.fs →
      (∀ log ∈ logs, log.dedup.length ≤ MAXOPBLOCKS) →
      WpUpTo A (filewriteLoop sb a others ip src n fuel i off logs)
        (fun r _ => ∀ log ∈ r.2, log.dedup.length ≤ MAXOPBLOCKS) x := by
  intro fuel
  induction fuel with
  | zero =>
    intro i off logs x hfuel
    omega
  | succ fuel ih =>
    intro i off logs x hfuel h hlogs
    unfold filewriteLoop
    split
    · apply upTo_bind
      refine (writeOp_spec (hothers i x.fs off h) (src.drop i) _ ?_).bind fun r y ⟨hy, hlen⟩ => ?_
      · simp only [MAXOPBLOCKS, BSIZE]
        omega
      · have hlogs' : ∀ log ∈ r.2 :: logs, log.dedup.length ≤ MAXOPBLOCKS := by
          intro log hlog
          rcases List.mem_cons.mp hlog with rfl | hlog
          · exact hlen
          · exact hlogs log hlog
        dsimp only
        split
        · exact upTo_pure hlogs'
        · refine ih _ _ _ y ?_ hy hlogs'
          simp only [MAXOPBLOCKS, BSIZE]
          omega
    · exact upTo_pure hlogs

/-- Whatever other processes do between the transactions, each of them stays within its
reservation. -/
theorem filewrite_fits_reservation {others : Others} (h : Ready sb ip x.fs)
    (hothers : ∀ i s off, Ready sb ip s → Ready sb ip (others i (s, off)).1) (a : Areas)
    (src : List UInt8) (n : Int) (off : Nat) :
    ∃ r logs y, filewrite sb a others ip src n off x = .ok ((r, logs), y) ∧
      ∀ log ∈ logs, log.dedup.length ≤ MAXOPBLOCKS := by
  have hrun : WpUpTo Fs.Never (filewrite sb a others ip src n off)
      (fun r _ => ∀ log ∈ r.2, log.dedup.length ≤ MAXOPBLOCKS) x := by
    unfold filewrite
    split
    · exact upTo_pure fun log hlog => absurd hlog List.not_mem_nil
    · exact filewriteLoop_spec hothers src _ _ _ [] x (by omega) h
        fun log hlog => absurd hlog List.not_mem_nil
  obtain ⟨r, y, hok, hlogs⟩ := Fs.exists_of_never hrun
  exact ⟨r.1, r.2, y, hok, hlogs⟩

theorem crowded_ready : Ready Fs.mkfsSuper 3 Fs.crowded where
  ref := by decide
  unlocked := by decide
  blocks := by
    have hload : loaded Fs.crowded 3 = Fs.crowded.dinode 3 := rfl
    rw [hload, update_eq_self]
    exact Fs.crowded_good.blocks
  typed := by decide

/-- A file is filled up to 100 bytes before the end of its direct blocks. -/
def fill : FsTxnM Unit := do
  let _ ← writeOp Fs.mkfsSuper ⟨32, 45⟩ 3 (List.replicate 3072 1) 0 3072
  let _ ← writeOp Fs.mkfsSuper ⟨32, 45⟩ 3 (List.replicate 3072 1) 3072 3072
  let _ ← writeOp Fs.mkfsSuper ⟨32, 45⟩ 3 (List.replicate 3072 1) 6144 3072
  let _ ← writeOp Fs.mkfsSuper ⟨32, 45⟩ 3 (List.replicate 2972 1) 9216 2972

theorem Ready.fill (h : Ready Fs.mkfsSuper 3 x.fs) :
    WpUpTo (fun _ => True) fill (fun _ y => Ready Fs.mkfsSuper 3 y.fs) x := by
  refine (writeOp_spec h _ _ (by decide)).bind fun _ _ h₁ => ?_
  refine (writeOp_spec h₁.1 _ _ (by decide)).bind fun _ _ h₂ => ?_
  refine (writeOp_spec h₂.1 _ _ (by decide)).bind fun _ _ h₃ => ?_
  exact (writeOp_spec h₃.1 _ _ (by decide)).bind fun _ _ h₄ => upTo_pure h₄.1

/-- The next transaction begins within a block and goes on to the first indirect blocks. -/
theorem filewrite_fits_reservation_of_file : ∃ x logs y, fill ⟨Fs.crowded, []⟩ = .ok ((), x) ∧
    filewrite Fs.mkfsSuper ⟨32, 45⟩ (fun _ p => p) 3 (List.replicate 3072 7) 3072 12188 x =
      .ok ((3072, logs), y) ∧ logs.map (·.dedup.length) = [7] ∧
      ∀ log ∈ logs, log.dedup.length ≤ MAXOPBLOCKS := by
  obtain ⟨⟨⟨⟩, x⟩, hfill, hends⟩ := Ends.exists_ok (r := fill ⟨Fs.crowded, []⟩) (P := fun x =>
    Ends (fun y => y.1.1 = 3072 ∧ y.1.2.map (·.dedup.length) = [7]) (fun _ => False)
      (filewrite Fs.mkfsSuper ⟨32, 45⟩ (fun _ p => p) 3 (List.replicate 3072 7) 3072 12188 x.2))
    (by decide +kernel)
  obtain ⟨⟨⟨_, logs⟩, y⟩, hrun, rfl, hlen⟩ := hends.exists_ok
  obtain ⟨r, logs', y', hrun', hfits⟩ := @filewrite_fits_reservation _ x _ (fun _ p => p)
    (crowded_ready.fill.ok hfill) (fun _ _ _ h => h) ⟨32, 45⟩ (List.replicate 3072 7) 3072 12188
  cases hrun.symm.trans hrun'
  exact ⟨x, logs, y, hfill, hrun, hlen, hfits⟩

end FsTxn

end Xv6
