import Xv6.ProcMemory

/-! `sys_exec`: the arguments are copied to pages of the kernel, the new image is built
beside the old one, and takes its place. -/

namespace Xv6

open Function StateProg

variable {L : Layout} {m m' : PhysMem} {t : Table} {s w : KState} {σ σ' : Space Key}
  {p q : Fin NPROC} {x : Nat} {u : UserProc}

namespace UserProc

def fetchaddr (u : UserProc) (addr : Nat) : Option Nat :=
  if addr ≥ u.sz ∨ (addr + 8) % 2 ^ 64 > u.sz then none
  else (UserMem.copyin 8 u.mem addr 8).map fun bytes => Buffer.getLE (fun i => bytes.getD i 0) 0 8

def fetchArgs (u : UserProc) (uargv : Nat) : Nat → Option (List (List UInt8))
  | 0 => none
  | n + 1 =>
    match u.fetchaddr ((uargv + 8 * (MAXARG - (n + 1))) % 2 ^ 64) with
    | none => none
    | some uarg =>
      if uarg = 0 then some []
      else
        match u.mem.readString uarg PGSIZE with
        | none => none
        | some str => (fetchArgs u uargv n).map fun argv => str :: argv

def exec (u : UserProc) (rd : Reads) (uargv : Nat) : Option UserProc :=
  match u.fetchArgs uargv MAXARG with
  | none => none
  | some argv => (programImage rd argv).map fun im => ⟨im.1, im.2⟩

end UserProc

structure KState.SameProcs (s w : KState) : Prop where
  proc : w.proc = s.proc
  initproc : w.initproc = s.initproc
  users : w.users = s.users
  frames : ∀ p tf, (s.proc p).trapframe = some tf → w.mem.page tf = s.mem.page tf

theorem KState.SameProcs.refl (s : KState) : s.SameProcs s := ⟨rfl, rfl, rfl, fun _ _ _ => rfl⟩

theorem KState.SameProcs.trans {a b c : KState} (h : a.SameProcs b) (h' : b.SameProcs c) : a.SameProcs c :=
  ⟨h'.proc.trans h.proc, h'.initproc.trans h.initproc, h'.users.trans h.users,
    fun p tf hp => (h'.frames p tf (by rw [h.proc]; exact hp)).trans (h.frames p tf hp)⟩

theorem Settled.same (h : Settled s) (hw : s.SameProcs w) : Settled w := by
  refine ⟨?_, ?_, ?_⟩
  · rw [hw.proc]
    exact h.unused
  · rw [hw.proc]
    exact h.live
  · rw [hw.proc, hw.initproc]
    exact h.init

namespace Procs

theorem kalloc (h : Procs L s σ) :
    Wp (onMem kalloc) (fun r w => r = none ∧ w = s ∨ ∃ x m' σ', r = some x ∧ w = { s with mem := m' } ∧
      Procs L { s with mem := m', kpages := x :: s.kpages } σ' ∧ σ'.table = σ.table ∧
      s.SameProcs { s with mem := m', kpages := x :: s.kpages }) s := by
  apply wp_onMem
  refine h.space.kalloc.mono fun r m₁ hr => ?_
  cases r with
  | none =>
    rw [hr.2]
    exact .inl ⟨rfl, rfl⟩
  | some x =>
    obtain ⟨hsp, h0, _, hpage⟩ := hr
    obtain ⟨hker, hused⟩ := Space.not_used_of_zero h0
    rw [h.kernel, not_or, not_exists] at hker
    have h' : Procs L { s with mem := m₁, kpages := x :: s.kpages } (σ.hold x) := by
      refine ⟨hsp, h.spare, h.table, fun y => ?_, List.nodup_cons.mpr ⟨hker.1, h.nodup⟩, fun q y hy => ?_⟩
      · change y ∈ insert x σ.kernel ↔ _
        rw [Set.mem_insert_iff, h.kernel, List.mem_cons, or_assoc]
      · refine ⟨fun hmem => ?_, (h.trapframe q y hy).2⟩
        rcases List.mem_cons.mp hmem with rfl | hmem
        · exact hker.2 q hy
        · exact (h.trapframe q y hy).1 hmem
    refine .inr ⟨x, m₁, _, rfl, rfl, h', rfl, rfl, rfl, ?_, fun q tf hq => hpage tf ?_⟩
    · funext q
      refine h.users_eq h' rfl rfl fun y hy => hpage y ?_
      rintro rfl
      exact hused (some q) hy
    · rintro rfl
      exact hker.2 q hq

theorem kfreePage (h : Procs L s σ) (hx : x ∈ s.kpages) :
    Wp (kfreePage L x) (fun _ w => (∃ σ', Procs L w σ' ∧ σ'.table = σ.table) ∧ s.SameProcs w ∧
      w.kpages = s.kpages.erase x) s := by
  have hker : x ∈ σ.kernel := (h.kernel x).mpr (.inl hx)
  apply wp_bind
  apply wp_onMem
  refine (h.space.kfree hker).mono fun _ m₁ hr => ?_
  apply wp_modify
  have hmem : ∀ y, y ∈ s.kpages.erase x ↔ y ≠ x ∧ y ∈ s.kpages := fun y => h.nodup.mem_erase_iff
  have h' : Procs L { s with mem := m₁, kpages := s.kpages.erase x } (σ.release x) := by
    refine ⟨hr.1, h.spare, h.table, fun y => ?_, h.nodup.erase x, fun q y hy => ?_⟩
    · change y ∈ σ.kernel \ {x} ↔ _
      rw [Set.mem_sdiff, h.kernel, Set.mem_singleton_iff, hmem]
      constructor
      · rintro ⟨hy | hy, hne⟩
        · exact .inl ⟨hne, hy⟩
        · exact .inr hy
      · rintro (⟨hne, hy⟩ | ⟨q, hq⟩)
        · exact ⟨.inl hy, hne⟩
        · refine ⟨.inr ⟨q, hq⟩, ?_⟩
          rintro rfl
          exact (h.trapframe q y hq).1 hx
    · exact ⟨fun hy' => (h.trapframe q y hy).1 ((hmem y).mp hy').2, (h.trapframe q y hy).2⟩
  refine ⟨⟨_, h', rfl⟩, ⟨rfl, rfl, ?_, fun q tf hq => hr.2 tf ?_⟩, rfl⟩
  · funext q
    refine h.users_eq h' rfl rfl fun y hy => hr.2 y ?_
    rintro rfl
    exact h.space.not_used_of_kernel hker (some q) hy
  · rintro rfl
    exact (h.trapframe q tf hq).1 hx

theorem kfreePages {pages : List Nat} (h : Procs L s σ) (hn : pages.Nodup) (hp : ∀ x ∈ pages, x ∈ s.kpages) :
    Wp (pages.forM (Xv6.kfreePage L)) (fun _ w => (∃ σ', Procs L w σ' ∧ σ'.table = σ.table) ∧
      s.SameProcs w ∧ w.kpages = s.kpages.diff pages) s := by
  induction pages generalizing s σ with
  | nil => exact wp_pure ⟨⟨σ, h, rfl⟩, .refl s, rfl⟩
  | cons x pages ih =>
    rw [List.nodup_cons] at hn
    refine (h.kfreePage (hp x (List.mem_cons_self ..))).bind fun _ s₁ h₁ => ?_
    obtain ⟨⟨σ₁, h₁, ht₁⟩, hsame, hk⟩ := h₁
    refine (ih h₁ hn.2 (fun y hy => ?_)).mono fun _ w hw => ?_
    · rw [hk, h.nodup.mem_erase_iff]
      refine ⟨?_, hp y (List.mem_cons_of_mem _ hy)⟩
      rintro rfl
      exact hn.1 hy
    · obtain ⟨⟨σ₂, h₂, ht₂⟩, hsame₂, hk₂⟩ := hw
      exact ⟨⟨σ₂, h₂, ht₂.trans ht₁⟩, hsame.trans hsame₂, by rw [hk₂, hk, List.diff_cons]⟩

theorem setPage (h : Procs L s σ) (hx : x ∈ s.kpages) (b : Buffer) :
    Wp (onMem (setPage x b)) (fun _ w => Procs L w σ ∧ s.SameProcs w ∧ w.kpages = s.kpages) s := by
  obtain ⟨h', hus⟩ := h.write_kernel ((h.kernel x).mpr (.inl hx)) b
  apply wp_onMem
  apply wp_modify
  refine ⟨h', ⟨rfl, rfl, hus, fun q tf hq => update_of_ne ?_ _ _⟩, rfl⟩
  rintro rfl
  exact (h.trapframe q tf hq).1 hx

theorem fetchaddr (h : Procs L s σ) (ht : σ.table (some p) = some t) (hu : s.users p = some u)
    (addr : Nat) : Wp (fetchaddr p addr) (fun r w => w = s ∧ r = u.fetchaddr addr) s := by
  have hsz : (s.proc p).sz = u.sz := by rw [h.user_eq ht hu]
  rw [Xv6.fetchaddr, UserProc.fetchaddr]
  apply wp_bind_get
  rw [hsz]
  by_cases hbad : addr ≥ u.sz ∨ (addr + 8) % 2 ^ 64 > u.sz
  · rw [if_pos hbad, if_pos hbad]
    exact wp_pure ⟨rfl, rfl⟩
  · rw [if_neg hbad, if_neg hbad]
    apply wp_bind_get
    apply wp_bind
    apply wp_deref (h.holds ht).1
    refine (h.copyin ht hu addr 8).bind fun r w hr => ?_
    obtain ⟨rfl, rfl⟩ := hr
    cases UserMem.copyin 8 u.mem addr 8 with
    | none => exact wp_pure ⟨rfl, rfl⟩
    | some bytes => exact wp_pure ⟨rfl, rfl⟩

theorem fetchstr (h : Procs L s σ) (ht : σ.table (some p) = some t) (hu : s.users p = some u)
    (addr max : Nat) :
    Wp (fetchstr p addr max) (fun r w => w = s ∧ r = u.mem.readString addr max) s := by
  apply wp_bind_get
  apply wp_bind
  apply wp_deref (h.holds ht).1
  refine (h.copyinstr ht hu addr max).bind fun r w hr => ?_
  obtain ⟨rfl, hr⟩ := hr
  cases hs : u.mem.readString addr max with
  | none =>
    rw [hs] at hr
    exact wp_pure ⟨rfl, if_pos (by rw [hr]; decide)⟩
  | some str =>
    rw [hs] at hr
    refine wp_pure ⟨rfl, (if_neg (by rw [hr.1]; decide)).trans ?_⟩
    rw [hr.2, cstring_append (UserMem.readString_iff.mp hs).1.not_mem]

theorem fetchArgs {n : Nat} (h : Procs L s σ) (hs : Settled s) (hrun : (s.proc p).state = .runnable)
    (hu : s.users p = some u) (uargv : Nat) :
    Wp (fetchArgs p uargv n) (fun r w => (∃ σ', Procs L w σ' ∧ σ'.table = σ.table) ∧ s.SameProcs w ∧
      w.kpages = r.1.reverse ++ s.kpages ∧
      ∀ argv, r.2 = some argv → u.fetchArgs uargv n = some argv) s := by
  induction n generalizing s σ with
  | zero => exact wp_pure ⟨⟨σ, h, rfl⟩, .refl s, rfl, nofun⟩
  | succ n ih =>
    obtain ⟨t, ht⟩ := h.running_table hs hrun
    rw [Xv6.fetchArgs, UserProc.fetchArgs]
    refine (h.fetchaddr ht hu _).bind fun r s₁ h₁ => ?_
    obtain ⟨rfl, rfl⟩ := h₁
    cases u.fetchaddr ((uargv + 8 * (MAXARG - (n + 1))) % 2 ^ 64) with
    | none => exact wp_pure ⟨⟨σ, h, rfl⟩, .refl s₁, rfl, nofun⟩
    | some uarg =>
      dsimp only
      by_cases hz : uarg = 0
      · rw [if_pos hz, if_pos hz]
        exact wp_pure ⟨⟨σ, h, rfl⟩, .refl s₁, rfl, fun argv ha => ha⟩
      rw [if_neg hz, if_neg hz]
      refine h.kalloc.bind fun r s₂ h₂ => ?_
      obtain ⟨rfl, rfl⟩ | ⟨page, m₂, σ₂, rfl, rfl, h₂, ht, hsame₂⟩ := h₂
      · exact wp_pure ⟨⟨σ, h, rfl⟩, .refl s₂, rfl, nofun⟩
      have hs₂ := hs.same hsame₂
      obtain ⟨t₂, ht₂⟩ := h₂.running_table hs₂ hrun
      apply wp_bind_modify
      refine (h₂.fetchstr ht₂ (by rw [hsame₂.users]; exact hu) uarg PGSIZE).bind fun r s₃ h₃ => ?_
      obtain ⟨rfl, rfl⟩ := h₃
      cases u.mem.readString uarg PGSIZE with
      | none => exact wp_pure ⟨⟨σ₂, h₂, ht⟩, hsame₂, rfl, nofun⟩
      | some str =>
        apply wp_bind_get
        refine (h₂.setPage (List.mem_cons_self ..) _).bind fun _ s₄ h₄ => ?_
        obtain ⟨h₄, hsame, hk₄⟩ := h₄
        have hsame₄ := hsame₂.trans hsame
        apply wp_bind
        refine (ih h₄ (hs.same hsame₄) (by rw [hsame₄.proc]; exact hrun) (by rw [hsame₄.users]; exact hu)).mono
          fun r s₅ h₅ => ?_
        obtain ⟨⟨σ₅, hp₅, ht₅⟩, hsame₅, hk₅, hargs⟩ := h₅
        refine wp_pure ⟨⟨σ₅, hp₅, ht₅.trans ht⟩, hsame₄.trans hsame₅, ?_, fun argv ha => ?_⟩
        · rw [hk₅, hk₄, List.reverse_cons, List.append_assoc]
          rfl
        · obtain ⟨argv', ha', rfl⟩ := Option.map_eq_some_iff.mp ha
          rw [hargs argv' ha']
          rfl

theorem replaced {pr : Proc} (h : Procs L s σ)
    (hs : SpaceInv L w.mem ((σ.set none (some t)).set (some p) none)) (he : s.Edits w p pr)
    (hroot : pr.pagetable = some t.root) (hc : t.Covers (pageCount pr.sz))
    (htf : pr.trapframe = (s.proc p).trapframe)
    (hp : ∀ q, q ≠ p → ∀ x, σ.UsedBy x (some q) → w.mem.page x = s.mem.page x) :
    (∃ σ', Procs L w σ' ∧ σ'.table (some p) = some t ∧
        ∀ q, q ≠ p → σ'.table (some q) = σ.table (some q)) ∧
      w.users = update s.users p (some ⟨t.view w.mem.page, pr.sz⟩) := by
  generalize hτ : ((σ.set none (some t)).set (some p) none).reindex (Equiv.swap none (some p)) = τ
  have htab : ∀ k, τ.table k =
      ((σ.set none (some t)).set (some p) none).table (Equiv.swap none (some p) k) := fun k => by
    rw [← hτ]
    rfl
  have hself : τ.table (some p) = some t := by
    rw [htab, Equiv.swap_apply_right, Space.table_set_ne (by simp), Space.table_set_self]
  have hother : ∀ q, q ≠ p → τ.table (some q) = σ.table (some q) := by
    intro q hq
    have hne : (some q : Key) ≠ some p := fun hh => hq (Option.some.inj hh)
    rw [htab, Equiv.swap_apply_of_ne_of_ne (by simp) hne, Space.table_set_ne hne,
      Space.table_set_ne (by simp)]
  have h' : Procs L w τ := by
    refine h.of_space ?_ (by rw [← hτ]; rfl) ?_ (fun q => ?_) he.kpages (he.field_eq htf)
    · rw [← hτ]
      exact hs.reindex _
    · rw [htab, Equiv.swap_apply_left, Space.table_set_self]
    · by_cases hq : q = p
      · subst q
        rw [hself, he.self]
        exact ⟨hroot, hc⟩
      · rw [hother q hq, he.other q hq]
        exact h.table q
  refine ⟨⟨τ, h', hself, hother⟩, h.users_update h' ?_ hother (fun q hq => by rw [he.other q hq]) hp⟩
  rw [h'.users_some hself, he.self]

end Procs

/-- Process `p` of `s` runs `image` in `w`, and the other processes have not noticed. -/
structure Committed (L : Layout) (s w : KState) (σ : Space Key) (p : Fin NPROC) (tf : Nat)
    (image : Image) (t : Table) (um : UserMem) : Prop where
  procs : ∃ σ', Procs L w σ' ∧ σ'.table (some p) = some t ∧
    ∀ q, q ≠ p → σ'.table (some q) = σ.table (some q)
  settled : Settled w
  edits : s.Edits w p { s.proc p with pagetable := some image.pagetable, sz := image.sz }
  frame : w.mem.page tf = (((s.mem.page tf).setLE Trapframe.a1 image.sp 8).setLE Trapframe.epc
    image.entry 8).setLE Trapframe.sp image.sp 8
  users : w.users = update s.users p (some ⟨um, image.sz⟩)

section Committed

variable {tf : Nat} {image : Image} {um : UserMem}

theorem Committed.registers (h : Committed L s w σ p tf image t um)
    (hsp : image.sp < 2 ^ 64) : (w.mem.page tf).getLE Trapframe.sp 8 = image.sp ∧
      (w.mem.page tf).getLE Trapframe.a1 8 = image.sp := by
  rw [h.frame]
  constructor
  · rw [Buffer.getLE_setLE]
    exact Nat.mod_eq_of_lt hsp
  · rw [Buffer.getLE_setLE_disjoint (.inr (by decide)), Buffer.getLE_setLE_disjoint (.inr (by decide)),
      Buffer.getLE_setLE]
    exact Nat.mod_eq_of_lt hsp

theorem Committed.epc (h : Committed L s w σ p tf image t um) (he : image.entry < 2 ^ 64) :
    (w.mem.page tf).getLE Trapframe.epc 8 = image.entry := by
  rw [h.frame, Buffer.getLE_setLE_disjoint (.inl (by decide)), Buffer.getLE_setLE]
  exact Nat.mod_eq_of_lt he

end Committed

namespace Procs

theorem alloc_none (h : Procs L s σ) : AllocInv L s.mem (σ.env none).count := by
  rw [Space.env_eq_refs h.spare]
  exact h.space.alloc

theorem commitImage {tf : Nat} {image : Image} {um : UserMem} (h : Procs L s σ) (hs : Settled s)
    (hrun : (s.proc p).state = .runnable) (htf : (s.proc p).trapframe = some tf)
    (heq : Set.EqOn m.page s.mem.page {x | 0 < (σ.env none).count x})
    (hb : Building L (σ.env none) m t image.sz um) (him : image.pagetable = t.root) :
    Wp (Xv6.commitImage L p tf image) (fun r w => r = image.argc ∧ Committed L s w σ p tf image t um)
      { s with mem := m } := by
  obtain ⟨told, htold⟩ := h.running_table hs hrun
  obtain ⟨hroot, hcold⟩ := h.holds htold
  have hsp₁ := h.space.set hb.inv heq
  have htold₁ : (σ.set none (some t)).table (some p) = some told := by
    exact htold
  have hker : tf ∈ (σ.set none (some t)).kernel := (h.kernel tf).mpr (.inr ⟨p, htf⟩)
  have htf₁ : m.page tf = s.mem.page tf := heq (Space.env_count_pos.mpr (.inl hker))
  apply wp_bind_get
  apply wp_bind_get
  apply wp_bind
  apply wp_deref hroot
  refine (SpaceInv.setTrapframe (s := { s with mem := m }) hsp₁ hker _ _).bind fun _ s₂ h₂ => ?_
  obtain ⟨m₂, rfl, hsp₂, hpage₂, htf₂⟩ := h₂
  apply wp_bind
  refine wp_setProc fun s₃ he₃ hm₃ => ?_
  have hm₃ : s₃.mem = m₂ := hm₃
  rw [← hm₃] at hsp₂ hpage₂ htf₂
  refine (hsp₂.setTrapframe hker _ _).bind fun _ s₄ h₄ => ?_
  obtain ⟨m₄, rfl, hsp₄, hpage₄, htf₄⟩ := h₄
  refine (SpaceInv.setTrapframe (s := { s₃ with mem := m₄ }) hsp₄ hker _ _).bind fun _ s₅ h₅ => ?_
  obtain ⟨m₅, rfl, hsp₅, hpage₅, htf₅⟩ := h₅
  apply wp_bind
  apply wp_onMem
  refine (procFreepagetable_spec (hsp₅.tableInv htold₁) hcold).mono fun _ m₆ hr => ?_
  have hkeep : ∀ k, k ≠ some p → ∀ y, (σ.set none (some t)).UsedBy y k → m₆.page y = m.page y := by
    intro k hk y hy
    rw [SpaceInv.usedBy_of_eqOn hk hr.2 hy, hpage₅ k y hy, hpage₄ k y hy, hpage₂ k y hy]
  have he : s.Edits { s₃ with mem := m₆ } p
      { s.proc p with pagetable := some image.pagetable, sz := image.sz } := he₃.of_mem.of_mem.set_mem
  obtain ⟨hp, hus⟩ := h.replaced (w := { s₃ with mem := m₆ }) (hsp₅.drop hr.1 hr.2) he (by rw [← him])
    hb.covers rfl (fun q hq y hy => by
      have hne : (some q : Key) ≠ some p := fun hh => hq (Option.some.inj hh)
      have hy' : (σ.set none (some t)).UsedBy y (some q) := (Space.usedBy_set_ne (by simp)).mpr hy
      rw [hkeep (some q) hne y hy']
      exact SpaceInv.usedBy_of_eqOn (k := none) (by simp) heq hy)
  have hview : t.view m₆.page = um := by
    rw [← hb.view]
    exact hsp₁.view_eq Space.table_set_self fun y hy => hkeep none (by simp) y hy
  refine wp_pure ⟨rfl, hp, hs.edit he ?_ ?_ ?_ (hs.running hrun).2, he, ?_, ?_⟩
  · rw [hrun]
    decide
  · dsimp only
    rw [hrun]
    decide
  · exact Option.some_ne_none _
  · dsimp only at htf₂ htf₄ htf₅ ⊢
    rw [hr.2 (Space.env_count_pos.mpr (.inl hker)), htf₅, htf₄, htf₂, htf₁]
  · rw [hus, hview]

theorem abandon (h : Procs L s σ) (ha : AllocInv L m (σ.env none).count)
    (heq : Set.EqOn m.page s.mem.page {x | 0 < (σ.env none).count x}) :
    Procs L { s with mem := m } σ ∧ KState.users { s with mem := m } = s.users := by
  have hset : σ.set none none = σ := by
    rw [Space.set, ← h.spare, update_eq_self]
  have hsp := h.space.drop ha heq
  rw [hset] at hsp
  refine h.mem_congr hsp fun k y hy => SpaceInv.usedBy_of_eqOn (k := none) ?_ heq hy
  rintro rfl
  obtain ⟨t, ht, _⟩ := hy
  rw [h.spare] at ht
  cases ht

theorem exec (h : Procs L s σ) (hs : Settled s) (hrun : (s.proc p).state = .runnable) (f : File)
    (argv : List (List UInt8)) :
    Wp (exec L p f argv) (fun r w => (∃ σ', Procs L w σ') ∧ Settled w ∧ w.kpages = s.kpages ∧
      (r < 0 ∧ w.users = s.users ∨ 0 ≤ r ∧ ∃ im, programImage (fileReads f) argv = some im ∧
        w.users = update s.users p (some ⟨im.1, im.2⟩))) s := by
  obtain ⟨tf, htf⟩ := Option.ne_none_iff_exists'.mp (hs.running hrun).2
  apply wp_bind_get
  apply wp_bind
  apply wp_deref htf
  apply wp_bind
  apply wp_onMem
  refine (execImage_spec h.alloc_none tf).mono fun r m₁ hr => ?_
  obtain ⟨heq, ⟨rfl, ha⟩ | ⟨t, im, um, rfl, him, himage, hb⟩⟩ := hr
  · obtain ⟨h₁, hus₁⟩ := h.abandon ha heq
    exact wp_pure ⟨⟨σ, h₁⟩, ⟨hs.unused, hs.live, hs.init⟩, rfl, Or.inl ⟨by decide, hus₁⟩⟩
  · refine (h.commitImage hs hrun htf heq hb him).mono (fun r w hw => ?_)
    obtain ⟨rfl, hc⟩ := hw
    obtain ⟨σ', hp', -⟩ := hc.procs
    exact ⟨⟨σ', hp'⟩, hc.settled, hc.edits.kpages, Or.inr ⟨Int.natCast_nonneg _, _, himage, hc.users⟩⟩

theorem exec_image {f : File} {argv : List (List UInt8)} {tf : Nat} {im : Image} (h : Procs L s σ)
    (hs : Settled s) (hrun : (s.proc p).state = .runnable) (htf : (s.proc p).trapframe = some tf)
    (himage : execImage L tf f argv s.mem = .ok (some im, m)) :
    ∃ w, Xv6.exec L p f argv s = .ok ((im.argc : Int), w) := by
  obtain ⟨heq, ⟨hnone, -⟩ | ⟨t, im, um, hsome, him, -, hb⟩⟩ := (execImage_spec h.alloc_none tf).ok himage
  · cases hnone
  · cases hsome
    have hwp : Wp (Xv6.exec L p f argv) (fun r _ => r = im.argc) s := by
      apply wp_bind_get
      apply wp_bind
      apply wp_deref htf
      apply wp_bind
      apply wp_onMem
      exact ⟨_, m, himage, (h.commitImage hs hrun htf heq hb him).mono (fun _ _ hw => hw.1)⟩
    obtain ⟨r, w, hexec, rfl⟩ := hwp
    exact ⟨w, hexec⟩

theorem sysExec (h : Procs L s σ) (hs : Settled s) (hrun : (s.proc p).state = .runnable)
    (hu : s.users p = some u) (f : File) (uargv : Nat) :
    Wp (sysExec L p f uargv) (fun r w => (∃ σ', Procs L w σ') ∧ Settled w ∧
      (r < 0 ∧ w.users = s.users ∨ 0 ≤ r ∧ ∃ u', u.exec (fileReads f) uargv = some u' ∧
        w.users = update s.users p (some u'))) s := by
  refine (h.fetchArgs hs hrun hu uargv).bind fun r s₁ h₁ => ?_
  obtain ⟨pages, argv⟩ := r
  obtain ⟨⟨σ₁, h₁, -⟩, hsame, hk, hargs⟩ := h₁
  have hn : pages.Nodup := by
    have hh := h₁.nodup
    rw [hk] at hh
    exact List.nodup_reverse.mp (List.nodup_append.mp hh).1
  have hmem : ∀ x ∈ pages, x ∈ s₁.kpages := by
    intro x hx
    rw [hk]
    exact List.mem_append_left _ (List.mem_reverse.mpr hx)
  cases argv with
  | none =>
    apply wp_bind
    apply wp_pure
    refine (h₁.kfreePages hn hmem).bind fun _ w hw => ?_
    obtain ⟨⟨σ₂, h₂, -⟩, hsame₂, -⟩ := hw
    have hsame' := hsame.trans hsame₂
    exact wp_pure ⟨⟨σ₂, h₂⟩, hs.same hsame', .inl ⟨by decide, hsame'.users⟩⟩
  | some argv =>
    refine (h₁.exec (hs.same hsame) (by rw [hsame.proc]; exact hrun) f argv).bind fun r s₂ h₂ => ?_
    obtain ⟨⟨σ₂, h₂⟩, hs₂, hk₂, hus₂⟩ := h₂
    refine (h₂.kfreePages hn (fun x hx => by rw [hk₂]; exact hmem x hx)).bind fun _ w hw => ?_
    obtain ⟨⟨σ₃, h₃, -⟩, hsame₃, -⟩ := hw
    refine wp_pure ⟨⟨σ₃, h₃⟩, hs₂.same hsame₃, ?_⟩
    rw [hsame₃.users, ← hsame.users]
    rcases hus₂ with hfail | ⟨hr, im, him, hus⟩
    · exact .inl hfail
    · refine .inr ⟨hr, ⟨im.1, im.2⟩, ?_, hus⟩
      rw [UserProc.exec, hargs argv rfl]
      dsimp only
      rw [him]
      rfl

end Procs

end Xv6
