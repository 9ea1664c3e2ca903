import Xv6.ActionRun
import Xv6.Reference

/-! What holds of all address spaces in every state the kernel comes to. -/

namespace Xv6

open StateProg ActionRun

def PointsTo (m : PhysMem) (pa i x : Nat) : Prop :=
  i < 512 ∧ (pteAt (m.page pa) i).has PTE_V = true ∧ pte2pa (pteAt (m.page pa) i) = x

def TablePage (m : PhysMem) (root x : Nat) : Prop :=
  x = root ∨ (∃ i, PointsTo m root i x) ∨ ∃ i q j, PointsTo m root i q ∧ PointsTo m q j x

def KState.pte (s : KState) (p : Fin NPROC) (v : Nat) : Pte :=
  match (s.proc p).pagetable with
  | some root => pteOf s.mem root v
  | none => 0

variable {L : Layout} {m m₀ : PhysMem} {s w : KState} {σ : Space Key} {p q : Fin NPROC} {t : Table}
  {root x : Nat} {ops : List Op} {op : Op}

theorem tableEntry_points {o : Option Nat} {pte : Pte} (h : pte = tableEntry o)
    (ha : ∀ q, o = some q → PageAddr q) : pte.has PTE_V = true ∧ pte2pa pte = x ↔ o = some x := by
  subst h
  cases o with
  | none =>
    rw [tableEntry_none]
    simp
  | some q =>
    obtain ⟨hv, hpa, _⟩ := tableEntry_some (ha q rfl)
    rw [hv, hpa]
    simp

theorem Table.Rep.tablePage_iff (h : t.Rep m.page) : TablePage m t.root x ↔ t.Has x := by
  have htop : ∀ i x, PointsTo m t.root i x ↔ t.mid i = some x := by
    intro i x
    constructor
    · rintro ⟨hi, hx⟩
      exact (tableEntry_points (h.top i hi) (fun q hq => h.addr q (.inr (.inl ⟨i, hq⟩)))).mp hx
    · intro hx
      have hi := h.mid_lt i x hx
      exact ⟨hi, (tableEntry_points (h.top i hi) (fun q hq => h.addr q (.inr (.inl ⟨i, hq⟩)))).mpr hx⟩
  have hmid : ∀ i q, t.mid i = some q → ∀ j x, PointsTo m q j x ↔ j < 512 ∧ t.bot (i * 512 + j) = some x := by
    intro i q hq j x
    refine and_congr_right fun hj => ?_
    exact tableEntry_points (h.mid i q hq j hj) fun y hy => h.addr y (.inr (.inr ⟨_, hy⟩))
  constructor
  · rintro (rfl | ⟨i, hi⟩ | ⟨i, q, j, hi, hj⟩)
    · exact .inl rfl
    · exact .inr (.inl ⟨i, (htop i x).mp hi⟩)
    · have hq := (htop i q).mp hi
      exact .inr (.inr ⟨_, ((hmid i q hq j x).mp hj).2⟩)
  · rintro (rfl | ⟨i, hi⟩ | ⟨w, hw⟩)
    · exact .inl rfl
    · exact .inr (.inl ⟨i, (htop i x).mpr hi⟩)
    · obtain ⟨q, hq⟩ := h.bot_mid w x hw
      have hdiv : w / 512 * 512 + w % 512 = w := Nat.div_add_mod' w 512
      refine .inr (.inr ⟨w / 512, q, w % 512, (htop _ q).mpr hq, (hmid _ q hq _ x).mpr ⟨?_, ?_⟩⟩)
      · exact Nat.mod_lt w (by decide)
      · rw [hdiv]
        exact hw

theorem Good.start (hfree : m₀.freelist = []) (hm : kinit L m₀ = .ok ((), m)) :
    Good L (KState.start m) ∧ m.freelist.length = npages L := by
  have ha := (kinit_free (L := L) hfree).ok hm
  have hrefs : (⟨fun _ => none, ∅⟩ : Space Key).refs = fun _ => 0 := by
    funext x
    have hu : (⟨fun _ => none, ∅⟩ : Space Key).users x = ∅ := by
      rw [Finset.eq_empty_iff_forall_notMem]
      intro k hk
      obtain ⟨t, ht, _⟩ := Space.mem_users.mp hk
      cases ht
    have hh : (⟨fun _ => none, ∅⟩ : Space Key).held x = 0 := if_neg (Set.notMem_empty x)
    rw [Space.refs, hu, hh, Finset.card_empty]
  refine ⟨⟨⟨⟨fun _ => none, ∅⟩, ?_⟩, ?_⟩, ha.length_freelist⟩
  · refine ⟨⟨?_, ?_, ?_⟩, rfl, fun _ => rfl, fun x => ?_, List.nodup_nil, ?_⟩
    · rw [hrefs]
      exact ha
    · rintro _ _ ⟨⟩
    · rintro _ _ ⟨⟩
    · simp [KState.start]
    · rintro _ _ ⟨⟩
  · exact ⟨fun _ _ => ⟨rfl, rfl, rfl⟩, fun _ hp => absurd rfl hp, fun _ _ => rfl⟩

theorem Good.kstep (h : Good L s) (hboot : BootOk s op) (hw : kstep L s op = .ok w) : Good L w := by
  rw [Xv6.kstep] at hw
  rcases h.perform op hboot with herr | ⟨res, w', hok, hgood, _⟩
  · rw [herr] at hw
    cases hw
  · rw [hok] at hw
    cases hw
    exact hgood

theorem Good.kstep_error {e : Panic} (h : Good L s) (hboot : BootOk s op)
    (hw : Xv6.kstep L s op = .error e) : e = .initExiting := by
  rw [Xv6.kstep] at hw
  rcases h.perform op hboot with herr | ⟨res, w', hok, _⟩
  · rw [herr] at hw
    cases hw
    rfl
  · rw [hok] at hw
    cases hw

theorem Good.run (h : Good L s) (hal : Along (Xv6.kstep L) BootOk s ops)
    (hrun : run (Xv6.kstep L) s ops = .ok w) : Good L w :=
  run_inv_along (fun _ _ _ hi hb hs => hi.kstep hb hs) h hal hrun

namespace Procs

theorem pteOf_eq (h : Procs L s σ) (ht : σ.table (some p) = some t) (v : Nat) :
    pteOf s.mem t.root v = t.leaf v := (h.tableInv ht).pteOf_eq v

theorem pte_some (h : Procs L s σ) (ht : σ.table (some p) = some t) (v : Nat) : s.pte p v = t.leaf v := by
  rw [KState.pte, (h.holds ht).1]
  exact h.pteOf_eq ht v

theorem tablePage_disjoint {rp rq : Nat} (h : Procs L s σ) (hne : p ≠ q)
    (hp : (s.proc p).pagetable = some rp) (hq : (s.proc q).pagetable = some rq)
    (hx : TablePage s.mem rp x) : ¬ TablePage s.mem rq x := by
  obtain ⟨t, ht, rfl, _⟩ := h.exists_table hp
  obtain ⟨u, hu, rfl, _⟩ := h.exists_table hq
  rw [(h.tableInv ht).rep.tablePage_iff] at hx
  rw [(h.tableInv hu).rep.tablePage_iff]
  intro hx'
  have hz := (h.tableInv ht).fits.has x hx
  have hpos : 0 < (σ.env (some p)).count x :=
    Space.env_count_pos.mpr (.inr ⟨some q, fun hh => hne (Option.some.inj hh).symm, u, hu, .inl hx'⟩)
  omega

end Procs

theorem lt_pageCount {v sz : Nat} : v < pageCount sz ↔ v * PGSIZE < pgRoundUp sz := by
  rw [pgRoundUp_eq]
  simp only [PGSIZE]
  omega

/-- In every state of every run each live process maps exactly the pages below its size,
the trapframe and the trampoline; and of all panics only `init exiting` can end a run. -/
theorem address_spaces_exact (hfree : m₀.freelist = []) (hm : kinit L m₀ = .ok ((), m))
    (hboot : Along (kstep L) BootOk (KState.start m) ops) :
    (∀ s, run (kstep L) (KState.start m) ops = .ok s →
      (∀ p, (s.proc p).state ≠ .unused → ∃ root, (s.proc p).pagetable = some root ∧
        (∀ v, (pteOf s.mem root v).has PTE_V = true ↔ v * PGSIZE < pgRoundUp (s.proc p).sz ∨
          v * PGSIZE = TRAPFRAME ∨ v * PGSIZE = TRAMPOLINE) ∧
        ∀ v, v * PGSIZE < pgRoundUp (s.proc p).sz → (pteOf s.mem root v).has PTE_R = true ∧
          ¬ ((pteOf s.mem root v).has PTE_W = true ∧ (pteOf s.mem root v).has PTE_COW = true)) ∧
      ∀ p q rp rq x, p ≠ q → (s.proc p).pagetable = some rp → (s.proc q).pagetable = some rq →
        TablePage s.mem rp x → ¬ TablePage s.mem rq x) ∧
    ∀ e, run (kstep L) (KState.start m) ops = .error e → e = .initExiting := by
  have hstart := (Good.start hfree hm).1
  refine ⟨fun s hs => ?_, fun e he => ?_⟩
  · obtain ⟨⟨σ, hp⟩, hset⟩ := hstart.run hboot hs
    refine ⟨fun p hlive => ?_, fun p q rp rq x hne h1 h2 hx => hp.tablePage_disjoint hne h1 h2 hx⟩
    obtain ⟨root, hroot⟩ := Option.ne_none_iff_exists'.mp (hset.live p hlive).2.1
    obtain ⟨t, ht, rfl, hc⟩ := hp.exists_table hroot
    have hfits := (hp.tableInv ht).fits
    refine ⟨t.root, hroot, fun v => ?_, fun v hv => ?_⟩
    · have hiff := hc.valid v
      rw [lt_pageCount] at hiff
      rw [hp.pteOf_eq ht, hiff]
      simp only [userTop, trampolinePage, TRAPFRAME, TRAMPOLINE, MAXVA, PGSIZE]
      omega
    · rw [hp.pteOf_eq ht]
      have hval : (t.leaf v).has PTE_V = true := (hc.valid v).mpr (.inl (lt_pageCount.mpr hv))
      refine ⟨(hfits.leaf v).readable hval, fun hh => ?_⟩
      have hcow := (hfits.leaf v).cow hh.1
      rw [hh.2] at hcow
      cases hcow
  · obtain ⟨s, op, hgood, hb, herr⟩ :=
      run_error_along (fun _ _ _ hi hb hs => hi.kstep hb hs) hstart hboot he
    exact hgood.kstep_error hb herr

theorem boot_ok (hfree : 10 ≤ (booted L).freelist.length) (hops : ∀ op ∈ ops, op ≠ .userinit) :
    Along (kstep L) BootOk (KState.start (booted L)) (.userinit :: ops) :=
  ⟨fun _ => hfree, fun s _ => along_of_mem (fun op hop _ h => absurd h (hops op hop)) s⟩

theorem Good.booted (hok : Along (Xv6.kstep L) BootOk (KState.start (Xv6.booted L)) ops)
    (hrun : ActionRun.run (Xv6.kstep L) (KState.start (Xv6.booted L)) ops = .ok s) : Good L s :=
  (Good.start rfl kinit_booted).1.run hok hrun

theorem Good.exists_table (h : Good L s) (hrun : (s.proc p).state = .runnable) :
    ∃ σ t, Procs L s σ ∧ σ.table (some p) = some t := by
  obtain ⟨⟨σ, hp⟩, hs⟩ := h
  obtain ⟨t, ht⟩ := hp.running_table hs hrun
  exact ⟨σ, t, hp, ht⟩

theorem boot_small (hops : ∀ op ∈ ops, op ≠ .userinit) :
    Along (kstep smallKernel) BootOk (KState.start (booted smallKernel)) (.userinit :: ops) :=
  boot_ok (by decide +kernel) hops

theorem Good.exists_small {P : KState → Prop} (ops : List Op) (hops : ∀ op ∈ ops, op ≠ .userinit)
    (h : Ends P (fun _ => False)
      (ActionRun.run (Xv6.kstep smallKernel) (KState.start (Xv6.booted smallKernel)) (.userinit :: ops))) :
    ∃ s, Good smallKernel s ∧ P s := by
  obtain ⟨s, hs, hp⟩ := h.exists_ok
  exact ⟨s, Good.booted (boot_small hops) hs, hp⟩

/-- The kernel with its first process, right after boot. -/
def firstProc : { s // run (kstep smallKernel) (KState.start (booted smallKernel)) [.userinit] = .ok s ∧
    (s.proc 0).state = .runnable ∧ s.mem.freelist ≠ [] ∧ (s.pte 0 0).has PTE_W = true ∧
    (s.pte 0 0).mayWrite = true } :=
  Ends.get (by decide +kernel)

theorem exists_writable_zero : ∃ m env t, TableInv smallKernel m env t ∧ m.freelist ≠ [] ∧
    (t.leaf 0).has PTE_W = true ∧ (t.leaf 0).mayWrite = true := by
  obtain ⟨s, hs, hrun, hfree, hw, hmay⟩ := firstProc
  obtain ⟨σ, t, hp, ht⟩ := (Good.booted (boot_small (by simp)) hs).exists_table hrun
  rw [hp.pte_some ht] at hmay hw
  exact ⟨s.mem, _, t, hp.tableInv ht, hfree, hw, hmay⟩

/-- The first process grows by a page and forks. Its child then stores to the first page, which is
copied for it; they go on sharing the second. -/
def forkRun : List Op := [.userinit, .sbrk 0 4096, .fork 0, .store 1 8 7]

theorem forkRun_ok : Along (kstep smallKernel) BootOk (KState.start (booted smallKernel)) forkRun :=
  boot_small (by simp)

def KState.HalfShared (s : KState) : Prop :=
  s.pte 0 1 = s.pte 1 1 ∧ (s.pte 0 1).has PTE_COW = true ∧ pte2pa (s.pte 0 0) ≠ pte2pa (s.pte 1 0)

instance (s : KState) : Decidable s.HalfShared := inferInstanceAs (Decidable (_ ∧ _))

/-- The state after `forkRun`. -/
def forked : { s // run (kstep smallKernel) (KState.start (booted smallKernel)) forkRun = .ok s ∧
    s.HalfShared ∧ (s.proc 0).state ≠ .unused ∧ (s.proc 1).state ≠ .unused ∧ (s.proc 1).sz = 8192 ∧
    smallKernel.InRange (pte2pa (s.pte 0 1)) ∧ s.mem.counter (pa2cowIndex (pte2pa (s.pte 0 1))) = 2 ∧
    (s.users 0).bind (·.mem.load 8) = some 0x97 ∧ (s.users 1).bind (·.mem.load 8) = some 7 ∧
    (s.users 0).bind (·.mem.load 9) = (s.users 1).bind (·.mem.load 9) } :=
  Ends.get (by decide +kernel)

theorem address_spaces_exact_forkRun : ∃ s r₀ r₁,
    run (kstep smallKernel) (KState.start (booted smallKernel)) forkRun = .ok s ∧ s.HalfShared ∧
    (s.proc 0).pagetable = some r₀ ∧ (s.proc 1).pagetable = some r₁ ∧
    (∀ v, (pteOf s.mem r₁ v).has PTE_V = true ↔ v * PGSIZE < pgRoundUp 8192 ∨ v * PGSIZE = TRAPFRAME ∨
      v * PGSIZE = TRAMPOLINE) ∧
    ∀ x, TablePage s.mem r₀ x → ¬ TablePage s.mem r₁ x := by
  obtain ⟨s, hrun, hshared, hlive₀, hlive, hsz, -⟩ := forked
  have hexact := (address_spaces_exact rfl kinit_booted forkRun_ok).1 s hrun
  obtain ⟨r₀, h₀, -⟩ := hexact.1 0 hlive₀
  obtain ⟨r₁, h₁, hvalid, -⟩ := hexact.1 1 hlive
  rw [hsz] at hvalid
  exact ⟨s, r₀, r₁, hrun, hshared, h₀, h₁, hvalid, fun x => hexact.2 0 1 r₀ r₁ x (by decide) h₀ h₁⟩

end Xv6
