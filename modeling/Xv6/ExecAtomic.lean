import Xv6.ExecSegments
import Xv6.PageCounts

/-! `exec` and `sys_exec` when any call they make may fail: the path is not found, a read of the
program file comes up short, or there is no memory. -/

namespace Xv6

open ActionRun Function StateProg

section Model

variable (L : Layout) (rd : Reads)

def stackProgram (pagetable sz entry : Nat) (argv : List (List UInt8)) : Kernel (Option Image) := do
  match ← allocStack L pagetable sz with
  | none => pure none
  | some sz1 => finishImage L pagetable sz1 entry argv

/-- The kernel with the names of processes and what the caller holds of the file system: `txn`
transactions it has begun and not ended, `refs` references to inodes and `locks` locks on them. -/
structure ExecSys where
  kernel : KState
  name : Fin NPROC → List UInt8
  txn : Nat
  refs : Nat
  locks : Nat

def onKernel {α : Type} (x : Sys α) : Prog ExecSys Panic α := fun s =>
  match x s.kernel with
  | .ok (a, k) => .ok (a, { s with kernel := k })
  | .error e => .error e

def ExecSys.beginOp : Prog ExecSys Panic Unit := modify fun s => { s with txn := s.txn + 1 }

def ExecSys.endOp : Prog ExecSys Panic Unit := modify fun s => { s with txn := s.txn - 1 }

def ExecSys.ilock : Prog ExecSys Panic Unit := modify fun s => { s with locks := s.locks + 1 }

def ExecSys.iunlockput : Prog ExecSys Panic Unit :=
  modify fun s => { s with locks := s.locks - 1, refs := s.refs - 1 }

def progName (path : List UInt8) : List UInt8 := ((path.reverse.takeWhile (· ≠ 47)).reverse).take 15

/-- `exec` up to the point where nothing can fail any more: the new image, and the trapframe. -/
def execLoad (p : Fin NPROC) (found : Bool) (argv : List (List UInt8)) :
    Prog ExecSys Panic (Option (Nat × Image)) := do
  ExecSys.beginOp
  if found = false then
    ExecSys.endOp
    pure none
  else
    modify fun s => { s with refs := s.refs + 1 }
    ExecSys.ilock
    let tf ← onKernel (do deref ((← get).proc p).trapframe)
    match ← onKernel (onMem (loadProgram L rd tf)) with
    | none => do
      ExecSys.iunlockput
      ExecSys.endOp
      pure none
    | some (pagetable, sz, entry) => do
      ExecSys.iunlockput
      ExecSys.endOp
      match ← onKernel (onMem (stackProgram L pagetable sz entry argv)) with
      | none => pure none
      | some image => pure (some (tf, image))

def execPath (p : Fin NPROC) (path : List UInt8) (found : Bool) (argv : List (List UInt8)) :
    Prog ExecSys Panic Int := do
  match ← execLoad L rd p found argv with
  | none => pure (-1)
  | some (tf, image) => do
    modify fun s => { s with name := update s.name p (progName path) }
    onKernel (commitImage L p tf image)

def sysExecPath (found : List UInt8 → Bool) (p : Fin NPROC) (upath uargv : Nat) :
    Prog ExecSys Panic Int := do
  match ← onKernel (fetchstr p upath MAXPATH) with
  | none => pure (-1)
  | some path => do
    let (pages, argv) ← onKernel (fetchArgs p uargv MAXARG)
    let ret ← match argv with
      | none => pure (-1)
      | some argv => execPath L rd p path (found path) argv
    onKernel (pages.forM (kfreePage L))
    pure ret

end Model

variable {L : Layout} {rd : Reads} {m m₀ : PhysMem} {env : Env} {t : Table} {sz : Nat}
  {um : UserMem} {σ' : Space Key} {s : KState} {argv : List (List UInt8)}

/-- The same uses of memory, with no page that a new table may share. -/
def Env.closed (env : Env) : Env := ⟨env.count, fun q => 0 < env.count q, fun _ h => h⟩

theorem Building.fresh (h : Building L env.closed m t sz um) :
    Building L env m t sz um ∧ ∀ q, 0 < env.count q → ¬ t.Uses q :=
  ⟨⟨⟨h.inv.alloc, h.inv.rep, ⟨h.inv.fits.leaf, h.inv.fits.inj, h.inv.fits.apart,
    fun q hq => h.inv.fits.sole q (env.sole_pos q hq), h.inv.fits.has, h.inv.fits.writable⟩⟩, h.covers, h.view⟩,
    h.inv.fits.sole⟩

theorem Building.stackProgram {entry : Nat} (h : Building L env m t sz um)
    (heq : Set.EqOn m.page m₀.page {x | 0 < env.count x})
    (hread : (rd.read .elf 0 Elfhdr.bytes).length = Elfhdr.bytes)
    (hput : UserMem.putSegments rd rd.elf.phnum 0 (rd.elf.phoff % 2 ^ 32) (UserMem.empty, 0) = some (um, sz)) :
    Wp (stackProgram L t.root sz entry argv) (fun r m' => Set.EqOn m'.page m₀.page {x | 0 < env.count x} ∧
      (r = none ∧ AllocInv L m' env.count ∨
       ∃ t' im um', r = some im ∧ im.pagetable = t'.root ∧ im.entry = entry ∧
        programImage rd argv = some (um', im.sz) ∧ Building L env m' t' im.sz um')) m := by
  refine (h.allocStack heq).bind fun r m₁ hr => ?_
  obtain ⟨heq₁, ⟨rfl, ha⟩ | ⟨t₁, hroot₁, rfl, hb₁, -⟩⟩ := hr
  · exact wp_pure ⟨heq₁, .inl ⟨rfl, ha⟩⟩
  rw [← hroot₁]
  refine (hb₁.finishImage heq₁).mono fun r m₂ hr => ?_
  obtain ⟨heq₂, ⟨rfl, ha⟩ | ⟨t₂, sp, um₂, rfl, hpush, hb₂⟩⟩ := hr
  · exact ⟨heq₂, .inl ⟨rfl, ha⟩⟩
  · exact ⟨heq₂, .inr ⟨t₂, _, um₂, rfl, rfl, rfl, programImage_eq hread hput hpush, hb₂⟩⟩

variable {x y : ExecSys} {σ : Space Key} {p : Fin NPROC} {u : UserProc}

theorem wp_onKernel {α : Type} {a : Sys α} {Q : α → ExecSys → Prop}
    (h : Wp a (fun r k => Q r { x with kernel := k }) x.kernel) : Wp (onKernel a) Q x := by
  obtain ⟨r, k, hr, hq⟩ := h
  refine ⟨r, _, ?_, hq⟩
  simp only [onKernel, hr]

structure ExecSys.Returned (x y : ExecSys) : Prop where
  txn : y.txn = x.txn
  refs : y.refs = x.refs
  locks : y.locks = x.locks

inductive ExecEnds (L : Layout) (rd : Reads) (path : List UInt8) (argv : List (List UInt8)) (x y : ExecSys)
    (σ : Space Key) (p : Fin NPROC) : Int → Prop
  | failed (procs : Procs L y.kernel σ) (same : x.kernel.SameProcs y.kernel)
      (kpages : y.kernel.kpages = x.kernel.kpages) (name : y.name = x.name) :
      ExecEnds L rd path argv x y σ p (-1)
  | done {tf : Nat} {image : Image} {t : Table} {um : UserMem}
      (htf : (x.kernel.proc p).trapframe = some tf) (root : image.pagetable = t.root)
      (entry : image.entry = rd.elf.entry) (loaded : programImage rd argv = some (um, image.sz))
      (fresh : ∀ q, 0 < (σ.env none).count q → ¬ t.Uses q)
      (committed : Committed L x.kernel y.kernel σ p tf image t um)
      (name : y.name = update x.name p (progName path)) : ExecEnds L rd path argv x y σ p image.argc

theorem Procs.failed {path : List UInt8} (h : Procs L x.kernel σ) (ha : AllocInv L m (σ.env none).count)
    (heq : Set.EqOn m.page x.kernel.mem.page {q | 0 < (σ.env none).count q})
    (hk : y.kernel = { x.kernel with mem := m }) (hname : y.name = x.name) :
    ExecEnds L rd path argv x y σ p (-1) := by
  obtain ⟨h₁, hus⟩ := h.abandon ha heq
  refine .failed (hk ▸ h₁) ?_ (by rw [hk]) hname
  rw [hk]
  refine ⟨rfl, rfl, hus, fun q tf hq => heq (Space.env_count_pos.mpr (.inl ?_))⟩
  exact (h.kernel tf).mpr (.inr ⟨q, hq⟩)

theorem Procs.execPath (h : Procs L x.kernel σ) (hs : Settled x.kernel)
    (hrun : (x.kernel.proc p).state = .runnable) (path : List UInt8) (found : Bool)
    (argv : List (List UInt8)) :
    Wp (execPath L rd p path found argv) (fun r y => x.Returned y ∧ ExecEnds L rd path argv x y σ p r) x := by
  obtain ⟨tf, htf⟩ := Option.ne_none_iff_exists'.mp (hs.running hrun).2
  apply wp_bind
  apply wp_bind_modify
  by_cases hfound : found = false
  · rw [if_pos hfound]
    apply wp_bind_modify
    apply wp_pure
    exact wp_pure ⟨⟨Nat.add_sub_cancel _ 1, rfl, rfl⟩, .failed h (.refl _) rfl rfl⟩
  rw [if_neg hfound]
  apply wp_bind_modify
  apply wp_bind_modify
  apply wp_bind
  apply wp_onKernel
  apply wp_bind_get
  apply wp_deref htf
  apply wp_bind
  apply wp_onKernel
  apply wp_onMem
  -- Every page in use is closed to the new table, so that it shares none with the old one.
  have hclosed : AllocInv L x.kernel.mem (σ.env none).closed.count := h.alloc_none
  refine (loadProgram_spec hclosed tf).mono fun r m₁ hr => ?_
  obtain ⟨heq₁, ⟨rfl, ha⟩ | ⟨t, sz, um, rfl, hread, hput, hb⟩⟩ := hr
  · apply wp_bind_modify
    apply wp_bind_modify
    apply wp_pure
    exact wp_pure ⟨⟨Nat.add_sub_cancel _ 1, Nat.add_sub_cancel _ 1, Nat.add_sub_cancel _ 1⟩,
      h.failed ha heq₁ rfl rfl⟩
  apply wp_bind_modify
  apply wp_bind_modify
  apply wp_bind
  apply wp_onKernel
  apply wp_onMem
  refine (hb.stackProgram heq₁ hread hput).mono fun r m₂ hr => ?_
  obtain ⟨heq₂, ⟨rfl, ha⟩ | ⟨t₂, im, um₂, rfl, him, hentry, himage, hb₂⟩⟩ := hr
  · apply wp_pure
    exact wp_pure ⟨⟨Nat.add_sub_cancel _ 1, Nat.add_sub_cancel _ 1, Nat.add_sub_cancel _ 1⟩,
      h.failed ha heq₂ rfl rfl⟩
  · apply wp_pure
    dsimp only
    apply wp_bind_modify
    apply wp_onKernel
    obtain ⟨hb₂, hfresh⟩ := hb₂.fresh
    refine (h.commitImage hs hrun htf heq₂ hb₂ him).mono fun r k hk => ?_
    obtain ⟨rfl, hc⟩ := hk
    exact ⟨⟨Nat.add_sub_cancel _ 1, Nat.add_sub_cancel _ 1, Nat.add_sub_cancel _ 1⟩,
      .done htf him hentry himage hfresh hc rfl⟩

theorem Space.ext_fields (ht : σ'.table = σ.table) (hk : σ'.kernel = σ.kernel) : σ' = σ := by
  cases σ
  cases σ'
  cases ht
  cases hk
  rfl

theorem Procs.kernel_eq {w : KState} (h : Procs L s σ) (h' : Procs L w σ')
    (hk : ∀ q, q ∈ w.kpages ↔ q ∈ s.kpages) (htf : ∀ q, (w.proc q).trapframe = (s.proc q).trapframe) :
    σ'.kernel = σ.kernel := by
  ext q
  rw [h.kernel, h'.kernel, hk]
  simp only [htf]

theorem mem_diff_pages {pages kpages : List Nat} (h : (pages.reverse ++ kpages).Nodup) (q : Nat) :
    q ∈ (pages.reverse ++ kpages).diff pages ↔ q ∈ kpages := by
  rw [h.mem_sdiff_iff, List.mem_append, List.mem_reverse]
  have hdis := (List.nodup_append.mp h).2.2
  constructor
  · rintro ⟨hq | hq, hnot⟩
    · exact absurd hq hnot
    · exact hq
  · intro hq
    exact ⟨.inr hq, fun hp => hdis q (List.mem_reverse.mpr hp) q hq rfl⟩

/-- Process `p` runs the program at the string `upath` with the arguments at `uargv`, as `u'`. -/
structure ExecSys.Loaded (rd : Reads) (upath uargv : Nat) (x y : ExecSys) (p : Fin NPROC) (u u' : UserProc)
    (root : Nat) : Prop where
  old : x.kernel.users p = some u
  image : u.exec rd uargv = some u'
  proc : y.kernel.proc = update x.kernel.proc p { x.kernel.proc p with pagetable := some root, sz := u'.sz }
  users : y.kernel.users = update x.kernel.users p (some u')
  name : ∃ path, u.mem.readString upath MAXPATH = some path ∧ y.name = update x.name p (progName path)
  entry : ∀ tf, (x.kernel.proc p).trapframe = some tf →
    (y.kernel.mem.page tf).getLE Trapframe.epc 8 = rd.elf.entry

inductive SysExecEnds (L : Layout) (rd : Reads) (upath uargv : Nat) (x y : ExecSys) (σ : Space Key)
    (p : Fin NPROC) : Int → Prop
  | failed (procs : Procs L y.kernel σ) (same : x.kernel.SameProcs y.kernel) (name : y.name = x.name) :
      SysExecEnds L rd upath uargv x y σ p (-1)
  | done {t : Table} {u u' : UserProc} {r : Int} (hr : 0 ≤ r)
      (procs : Procs L y.kernel (σ.set (some p) (some t)))
      (loaded : x.Loaded rd upath uargv y p u u' t.root)
      (fresh : ∀ told q, σ.table (some p) = some told → told.Uses q → ¬ t.Uses q) :
      SysExecEnds L rd upath uargv x y σ p r

structure ArgPages (L : Layout) (x : ExecSys) (k : KState) (σ σ₁ : Space Key) (pages : List Nat) : Prop where
  procs : Procs L k σ₁
  table : σ₁.table = σ.table
  same : x.kernel.SameProcs k
  kpages : k.kpages = pages.reverse ++ x.kernel.kpages

namespace ArgPages

variable {k : KState} {σ₁ : Space Key} {pages : List Nat} {z : ExecSys} {r : Int}

theorem nodup (h : ArgPages L x k σ σ₁ pages) : (pages.reverse ++ x.kernel.kpages).Nodup :=
  h.kpages ▸ h.procs.nodup

theorem free {path : List UInt8} {u : UserProc} {upath uargv : Nat} (ha : ArgPages L x k σ σ₁ pages)
    (h : Procs L x.kernel σ) (hret : x.Returned z) (hu : x.kernel.users p = some u)
    (hpath : u.mem.readString upath MAXPATH = some path)
    (hargs : r = -1 ∨ u.fetchArgs uargv MAXARG = some argv)
    (hend : ExecEnds L rd path argv { x with kernel := k } z σ₁ p r) :
    Wp (do
      onKernel (pages.forM (kfreePage L))
      pure r) (fun r y => x.Returned y ∧ (∀ q, q ∈ y.kernel.kpages ↔ q ∈ x.kernel.kpages) ∧
        SysExecEnds L rd upath uargv x y σ p r) z := by
  have hn : pages.Nodup := List.nodup_reverse.mp (List.nodup_append.mp ha.nodup).1
  have hmem (hz : z.kernel.kpages = k.kpages) (q : Nat) (hq : q ∈ pages) : q ∈ z.kernel.kpages := by
    rw [hz, ha.kpages]
    exact List.mem_append_left _ (List.mem_reverse.mpr hq)
  have hkp (hz : z.kernel.kpages = k.kpages) (q : Nat) :
      q ∈ z.kernel.kpages.diff pages ↔ q ∈ x.kernel.kpages := by
    rw [hz, ha.kpages]
    exact mem_diff_pages ha.nodup q
  apply wp_bind
  apply wp_onKernel
  cases hend with
  | failed hz hsame hkz hname =>
    refine (hz.kfreePages hn (hmem hkz)).mono fun _ w hw => ?_
    obtain ⟨⟨σ₂, h₂, ht₂⟩, hsame₂, hk₂⟩ := hw
    have hsame' := (ha.same.trans hsame).trans hsame₂
    have hkp' (q : Nat) : q ∈ w.kpages ↔ q ∈ x.kernel.kpages := by
      rw [hk₂]
      exact hkp hkz q
    have hσ : σ₂ = σ := Space.ext_fields (ht₂.trans ha.table)
      (h.kernel_eq h₂ hkp' (fun q => by rw [hsame'.proc]))
    rw [hσ] at h₂
    exact wp_pure ⟨⟨hret.txn, hret.refs, hret.locks⟩, hkp', .failed h₂ hsame' hname⟩
  | @done tf image t um htf₀ him hentry himage hfresh hc hname =>
    obtain ⟨σ', hz, htp, hoth⟩ := hc.procs
    refine (hz.kfreePages hn (hmem hc.edits.kpages)).mono fun _ w hw => ?_
    obtain ⟨⟨σ₂, h₂, ht₂⟩, hsame₂, hk₂⟩ := hw
    have hkp' (q : Nat) : q ∈ w.kpages ↔ q ∈ x.kernel.kpages := by
      rw [hk₂]
      exact hkp hc.edits.kpages q
    have htab : σ₂.table = (σ.set (some p) (some t)).table := by
      funext key
      rw [ht₂]
      cases key with
      | none =>
        rw [hz.spare, Space.table_set_ne (by simp), h.spare]
      | some q =>
        by_cases hq : q = p
        · subst q
          rw [htp, Space.table_set_self]
        · rw [hoth q hq, Space.table_set_ne (fun hh => hq (Option.some.inj hh)), ha.table]
    have htf (q : Fin NPROC) : (w.proc q).trapframe = (x.kernel.proc q).trapframe := by
      rw [hsame₂.proc, hc.edits.field_eq (f := Proc.trapframe) rfl, ha.same.proc]
    have hσ : σ₂ = σ.set (some p) (some t) := Space.ext_fields htab (h.kernel_eq h₂ hkp' htf)
    rw [hσ] at h₂
    have hargs : u.fetchArgs uargv MAXARG = some argv :=
      hargs.resolve_left fun hneg => absurd (Int.natCast_nonneg image.argc) (by rw [hneg]; decide)
    have hexec : u.exec rd uargv = some ⟨um, image.sz⟩ := by
      rw [UserProc.exec, hargs]
      dsimp only
      rw [himage]
      rfl
    refine wp_pure ⟨⟨hret.txn, hret.refs, hret.locks⟩, hkp', .done (Int.natCast_nonneg _) h₂
      ⟨hu, hexec, ?_, ?_, ⟨path, hpath, hname⟩, fun tf' htf' => ?_⟩ fun told q ht hq => ?_⟩
    · funext q
      rw [hsame₂.proc, ← ha.same.proc]
      by_cases hq : q = p
      · subst q
        rw [hc.edits.self, update_self, him]
      · rw [hc.edits.other q hq, update_of_ne hq]
    · rw [hsame₂.users, hc.users, ha.same.users]
    · rw [← ha.same.proc, htf₀] at htf'
      cases htf'
      have hframe : (z.kernel.proc p).trapframe = some tf := by
        rw [hc.edits.field_eq (f := Proc.trapframe) rfl]
        exact htf₀
      rw [hsame₂.frames p tf hframe, hc.epc, hentry]
      rw [hentry]
      exact Buffer.getLE_lt _ 24 8
    · refine hfresh q (Space.env_count_pos.mpr (.inr ⟨some p, by simp, told, ?_, hq⟩))
      rw [ha.table]
      exact ht

end ArgPages

theorem Procs.sysExecPath (h : Procs L x.kernel σ) (hs : Settled x.kernel)
    (hrun : (x.kernel.proc p).state = .runnable) (found : List UInt8 → Bool) (upath uargv : Nat) :
    Wp (sysExecPath L rd found p upath uargv) (fun r y => x.Returned y ∧
      (∀ q, q ∈ y.kernel.kpages ↔ q ∈ x.kernel.kpages) ∧ SysExecEnds L rd upath uargv x y σ p r) x := by
  obtain ⟨t, ht⟩ := h.running_table hs hrun
  have hu := h.users_some ht
  apply wp_bind
  apply wp_onKernel
  refine (h.fetchstr ht hu upath MAXPATH).mono fun path k hk => ?_
  obtain ⟨rfl, hpath⟩ := hk
  cases path with
  | none => exact wp_pure ⟨⟨rfl, rfl, rfl⟩, fun _ => Iff.rfl, .failed h (.refl _) rfl⟩
  | some path =>
    apply wp_bind
    apply wp_onKernel
    refine (h.fetchArgs hs hrun hu uargv).mono fun r k hr => ?_
    obtain ⟨pages, argv⟩ := r
    obtain ⟨⟨σ₁, h₁, ht₁⟩, hsame₁, hk₁, hargs⟩ := hr
    have ha : ArgPages L x k σ σ₁ pages := ⟨h₁, ht₁, hsame₁, hk₁⟩
    cases argv with
    | none =>
      apply wp_bind
      have hend : ExecEnds L rd path [] { x with kernel := k } { x with kernel := k } σ₁ p (-1) :=
        .failed h₁ (.refl _) rfl rfl
      exact wp_pure (ha.free h ⟨rfl, rfl, rfl⟩ hu hpath.symm (.inl rfl) hend)
    | some argv =>
      have hrun₁ : (k.proc p).state = .runnable := by
        rw [hsame₁.proc]
        exact hrun
      have hexec : Wp (Xv6.execPath L rd p path (found path) argv) _ { x with kernel := k } :=
        Procs.execPath h₁ (hs.same hsame₁) hrun₁ path (found path) argv
      apply wp_bind
      exact hexec.mono fun r z hz =>
        ha.free h ⟨hz.1.txn, hz.1.refs, hz.1.locks⟩ hu hpath.symm (.inr (hargs argv rfl)) hz.2

open Classical in
/-- The references that the address space of `p` has to page `q`: those of its user pages, and one
if it is a page of its page table. -/
noncomputable def KState.spaceRefs (s : KState) (p : Fin NPROC) (q : Nat) : Nat :=
  (s.leaves p q).card +
    if ∃ root, (s.proc p).pagetable = some root ∧ TablePage s.mem root q then 1 else 0

theorem Procs.spaceRefs_eq (h : Procs L s σ) (ht : σ.table (some p) = some t) (q : Nat) :
    owners (σ.env (some p)) t q = (σ.env (some p)).count q + s.spaceRefs p q := by
  have hroot := (h.holds ht).1
  have htab : (∃ root, (s.proc p).pagetable = some root ∧ TablePage s.mem root q) ↔ t.Has q := by
    rw [← (h.tableInv ht).rep.tablePage_iff, hroot]
    simp
  rw [KState.spaceRefs]
  by_cases hq : t.Has q
  · rw [if_pos (htab.mpr hq), owners_uses (.inl hq),
      h.leaves_kernelOwned (.inr (.inr ⟨p, t.root, hroot, (h.tableInv ht).rep.tablePage_iff.mpr hq⟩)),
      Finset.card_empty]
  · have hcard := h.card_leaves (p := p) (x := q) (fun t' ht' hh => by
      rw [ht, Option.some.injEq] at ht'
      exact hq (ht' ▸ hh))
    rw [if_neg (mt htab.mp hq), hcard, Nat.add_zero]
    by_cases hu : t.Uses q
    · rw [owners_uses hu, if_pos ⟨t, ht, hu⟩]
    · rw [owners_not_uses hu, if_neg, Nat.add_zero]
      rintro ⟨t', ht', hu'⟩
      rw [ht, Option.some.injEq] at ht'
      exact hu (ht' ▸ hu')

structure ExecSys.Untouched (x y : ExecSys) : Prop where
  proc : y.kernel.proc = x.kernel.proc
  name : y.name = x.name
  users : y.kernel.users = x.kernel.users
  frames : ∀ p tf, (x.kernel.proc p).trapframe = some tf → y.kernel.mem.page tf = x.kernel.mem.page tf
  free : ∀ q, q ∈ y.kernel.mem.freelist ↔ q ∈ x.kernel.mem.freelist

/-- Process `p` runs the new program in a new address space: no page of the old one is in it, each
reference of the old one is given up once, each of the new one is counted once, and the pages without
references are free. -/
structure ExecSys.Replaced (L : Layout) (rd : Reads) (upath uargv : Nat) (x y : ExecSys) (p : Fin NPROC) :
    Prop where
  loaded : ∃ u u' root, x.Loaded rd upath uargv y p u u' root ∧ (x.kernel.proc p).pagetable ≠ some root
  apart : ∀ q, x.kernel.spaceRefs p q = 0 ∨ y.kernel.spaceRefs p q = 0
  counts : ∀ q, L.InRange q →
    (y.kernel.mem.counter (pa2cowIndex q)).toNat + x.kernel.spaceRefs p q =
      (x.kernel.mem.counter (pa2cowIndex q)).toNat + y.kernel.spaceRefs p q
  free : ∀ q, q ∈ y.kernel.mem.freelist ↔
    L.InRange q ∧ (y.kernel.mem.counter (pa2cowIndex q)).toNat = 0

theorem Procs.spaceRefs_zero (h : Procs L s σ) (ht : σ.table (some p) = some t) {q : Nat} (hq : ¬ t.Uses q) :
    s.spaceRefs p q = 0 := by
  have heq := h.spaceRefs_eq ht q
  rw [owners_not_uses hq] at heq
  omega

/-- `sys_exec` comes back, whatever the file holds and whichever call fails, without a panic. It has
given back the inode, the transaction and the buffers of the arguments; and it has failed and changed
nothing of the process, or put the new program in the place of the old one. -/
theorem sys_exec_all_or_nothing (hg : Good L x.kernel) (hrun : (x.kernel.proc p).state = .runnable)
    (rd : Reads) (found : List UInt8 → Bool) (upath uargv : Nat) :
    ∃ r y, sysExecPath L rd found p upath uargv x = .ok (r, y) ∧ x.Returned y ∧
      (∀ q, q ∈ y.kernel.kpages ↔ q ∈ x.kernel.kpages) ∧ y.kernel.mem.freelist.Nodup ∧
      (r = -1 ∧ x.Untouched y ∨ 0 ≤ r ∧ x.Replaced L rd upath uargv y p) := by
  obtain ⟨⟨σ, hp⟩, hs⟩ := hg
  obtain ⟨told, htold⟩ := hp.running_table hs hrun
  have hwp : Wp (sysExecPath L rd found p upath uargv) _ x := hp.sysExecPath hs hrun found upath uargv
  obtain ⟨r, y, hexec, hret, hk, hend⟩ := hwp
  refine ⟨r, y, hexec, hret, hk, ?_⟩
  cases hend with
  | failed hy hsame hname =>
    refine ⟨hy.space.alloc.nodup, .inl ⟨rfl, hsame.proc, hname, hsame.users, hsame.frames, fun q => ?_⟩⟩
    rw [hy.space.alloc.free, hp.space.alloc.free]
  | @done t u u' _ hr hy hloaded hfresh =>
    have ht : (σ.set (some p) (some t)).table (some p) = some t := Space.table_set_self
    refine ⟨hy.space.alloc.nodup, .inr ⟨hr, ⟨u, u', t.root, hloaded, fun hroot => ?_⟩, fun q => ?_,
      fun q hq => ?_, fun q => ?_⟩⟩
    · have heq : told.root = t.root := Option.some.inj ((hp.holds htold).1.symm.trans hroot)
      exact hfresh told told.root htold (.inl (.inl rfl)) (heq ▸ .inl (.inl rfl))
    · by_cases hq : told.Uses q
      · exact .inr (hy.spaceRefs_zero ht (hfresh told q htold hq))
      · exact .inl (hp.spaceRefs_zero htold hq)
    · have hnew := hy.spaceRefs_eq ht q
      have hold := hp.spaceRefs_eq htold q
      rw [Space.owners_env ht, Space.env_set] at hnew
      rw [Space.owners_env htold] at hold
      rw [hy.space.alloc.count q hq, hp.space.alloc.count q hq]
      omega
    · rw [hy.space.alloc.free]
      exact and_congr_right fun hq => by rw [hy.space.alloc.count q hq]

theorem upTo_onKernel {α : Type} {a : Sys α} {A : Panic → Prop} {Q : α → ExecSys → Prop}
    (h : WpUpTo A a (fun r k => Q r { x with kernel := k }) x.kernel) : WpUpTo A (onKernel a) Q x := by
  unfold WpUpTo onKernel at *
  cases ha : a x.kernel with
  | ok r =>
    rw [ha] at h
    exact h
  | error e =>
    rw [ha] at h
    exact h

/-- When the image has been built, `exec` returns `argc`. -/
theorem sysExecPath_returns {found : List UInt8 → Bool} {upath uargv tf : Nat} {path : List UInt8}
    {pages : List Nat} {image : Image} {x₁ x₂ z : ExecSys}
    (hpath : onKernel (fetchstr p upath MAXPATH) x = .ok (some path, x₁))
    (hargs : onKernel (fetchArgs p uargv MAXARG) x₁ = .ok ((pages, some argv), x₂))
    (hload : execLoad L rd p (found path) argv x₂ = .ok (some (tf, image), z)) :
    WpUpTo (fun _ => True) (sysExecPath L rd found p upath uargv) (fun r _ => r = image.argc) x := by
  refine upTo_bind (upTo_of_wp ⟨_, _, hpath, upTo_bind (upTo_of_wp ⟨_, _, hargs, ?_⟩)⟩)
  refine WpUpTo.bind (P := fun r _ => r = (image.argc : Int)) ?_ ?_
  · refine upTo_bind (upTo_of_wp ⟨_, _, hload, upTo_bind_modify (upTo_onKernel ?_)⟩)
    iterate 8 refine upTo_after fun _ _ => ?_
    exact upTo_pure rfl
  · rintro _ z rfl
    exact upTo_after fun _ _ => upTo_pure rfl

/-- The first process executes the path and the arguments that stand in its code. -/
theorem sys_exec_all_or_nothing_tiny : ∃ x y, Good smallKernel x.kernel ∧
    sysExecPath smallKernel (fileReads tinyElf) (fun _ => true) 0 36 43 x = .ok (1, y) ∧
    x.Replaced smallKernel (fileReads tinyElf) 36 43 y 0 := by
  obtain ⟨s, hg, hrun, hends⟩ := Good.exists_small
    (P := fun s => (s.proc 0).state = .runnable ∧ Ends (fun a => ∃ path ∈ a.1, Ends (fun b => ∃ argv ∈ b.1.2,
      Ends (fun c => ∃ i ∈ c.1, i.2.argc = 1) (fun _ => False)
        (execLoad smallKernel (fileReads tinyElf) 0 ((fun _ => true) path) argv b.2)) (fun _ => False)
      (onKernel (fetchArgs 0 43 MAXARG) a.2)) (fun _ => False)
      (onKernel (fetchstr 0 36 MAXPATH) ⟨s, fun _ => [], 0, 0, 0⟩))
    [] (by simp) (by decide +kernel)
  obtain ⟨⟨_, x₁⟩, hpath, path, rfl, hends⟩ := hends.exists_ok
  obtain ⟨⟨⟨pages, _⟩, x₂⟩, hargs, argv, rfl, hends⟩ := hends.exists_ok
  obtain ⟨⟨_, z⟩, hload, ⟨tf, image⟩, rfl, hargc⟩ := hends.exists_ok
  obtain ⟨r, y, hexec, -, -, -, hres⟩ := sys_exec_all_or_nothing
    (x := ⟨s, fun _ => [], 0, 0, 0⟩) hg hrun (fileReads tinyElf) (fun _ => true) 36 43
  have hr := (sysExecPath_returns hpath hargs hload).ok hexec
  rw [hargc] at hr
  subst r
  rcases hres with ⟨hneg, -⟩ | ⟨-, hrep⟩
  · cases hneg
  · exact ⟨_, y, hg, hexec, hrep⟩

end Xv6
