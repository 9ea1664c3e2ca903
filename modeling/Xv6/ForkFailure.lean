import Xv6.AddressSpaces

/-! A `fork` that fails, at whatever point: no page, no counter and no process shows that it
was tried. -/

namespace Xv6

open StateProg ActionRun

variable {L : Layout} {m m₀ : PhysMem} {s w : KState} {σ : Space Key} {p : Fin NPROC} {ops : List Op}

/-- `w` is `s` again, up to the entries that became copy-on-write and the order of the free
list. `users` is what each process can read and which pages it may write. -/
structure NoTrace (L : Layout) (s w : KState) : Prop where
  free : ∀ x, x ∈ w.mem.freelist ↔ x ∈ s.mem.freelist
  counter : ∀ x, L.InRange x → w.mem.counter (pa2cowIndex x) = s.mem.counter (pa2cowIndex x)
  slots : w.proc = s.proc ∨ ∃ np, (s.proc np).state = .unused ∧ (∀ q, q ≠ np → w.proc q = s.proc q) ∧
    (w.proc np).state = .unused ∧ (w.proc np).pagetable = none ∧ (w.proc np).trapframe = none
  users : w.users = s.users

theorem Refused.noTrace (h : Refused L s σ w) (hs : Procs L s σ) : NoTrace L s w := by
  obtain ⟨σ', hp, hrefs⟩ := h.procs
  refine ⟨fun x => ?_, fun x hx => ?_, h.slots.imp id ?_, h.users⟩
  · rw [hp.space.alloc.free, hs.space.alloc.free, hrefs]
  · rw [← UInt8.toNat_inj, hp.space.alloc.count x hx, hs.space.alloc.count x hx, hrefs]
  · rintro ⟨np, hu, he⟩
    refine ⟨np, hu, he.other, ?_, ?_, ?_⟩
    · rw [he.self]
    · rw [he.self]
    · rw [he.self]

/-- `fork` does not panic in any state of any run, and when it fails it leaves no trace. -/
theorem failed_fork_leaves_no_trace (hfree : m₀.freelist = []) (hm : kinit L m₀ = .ok ((), m))
    (hboot : Along (kstep L) BootOk (KState.start m) ops)
    (hrun : run (kstep L) (KState.start m) ops = .ok s) (hp : (s.proc p).state = .runnable) :
    Wp (fork L p) (fun r w => r = -1 ∧ NoTrace L s w ∨ 0 ≤ r) s := by
  obtain ⟨⟨σ, hprocs⟩, hsettled⟩ := (Good.start hfree hm).1.run hboot hrun
  refine (hprocs.fork_exact hsettled hp).mono (fun r w hr => ?_)
  obtain ⟨rfl, href⟩ | ⟨_, _, _, hpid, _⟩ := hr
  · exact Or.inl ⟨rfl, href.noTrace hprocs⟩
  · exact Or.inr hpid

theorem fork_uvmcopy_failed {np : Fin NPROC} {old new : Nat} {r : Int} (ha : allocproc L s = .ok (some np, w))
    (hold : (w.proc p).pagetable = some old) (hnew : (w.proc np).pagetable = some new)
    (hcopy : uvmcopy L old new (w.proc p).sz w.mem = .ok (r, m)) (hr : r < 0) :
    WpUpTo (fun _ => True) (fork L p) (fun r _ => r = -1) s := by
  refine upTo_bind ?_
  rw [WpUpTo, ha]
  apply upTo_bind_get
  rw [hold]
  refine upTo_bind (upTo_pure ?_)
  apply upTo_bind_get
  rw [hnew]
  refine upTo_bind (upTo_pure ?_)
  apply upTo_bind_get
  refine upTo_bind ?_
  rw [WpUpTo, onMem, hcopy]
  dsimp only
  rw [if_pos hr]
  exact upTo_after fun _ _ => upTo_pure rfl

/-- Four pages are left. `fork` uses them for the trapframe and the page table of the child, and
`uvmcopy` fails at the first page, whose entry it has already changed. -/
theorem failed_fork_leaves_no_trace_in_uvmcopy : ∃ s w w' np old new m,
    run (kstep tinyKernel) (KState.start (booted tinyKernel)) [.userinit, .sbrk 0 4096] = .ok s ∧
    s.mem.freelist.length = 4 ∧ allocproc tinyKernel s = .ok (some np, w) ∧
    (w.proc 0).pagetable = some old ∧ (w.proc np).pagetable = some new ∧
    uvmcopy tinyKernel old new (w.proc 0).sz w.mem = .ok (-1, m) ∧
    (pteOf w.mem old 0).has PTE_W = true ∧ (pteOf m old 0).has PTE_COW = true ∧
    fork tinyKernel 0 s = .ok (-1, w') ∧ NoTrace tinyKernel s w' := by
  have hok : Along (kstep tinyKernel) BootOk (KState.start (booted tinyKernel)) [.userinit, .sbrk 0 4096] :=
    boot_ok (by decide +kernel) (by simp)
  obtain ⟨s, hrun, hp, hfree, halloc⟩ := Ends.exists_ok (P := fun s => (s.proc 0).state = .runnable ∧
    s.mem.freelist.length = 4 ∧ Ends (fun x => ∃ np ∈ x.1, ∃ old ∈ (x.2.proc 0).pagetable,
      ∃ new ∈ (x.2.proc np).pagetable, (pteOf x.2.mem old 0).has PTE_W = true ∧
        Ends (fun y => y.1 = -1 ∧ (pteOf y.2 old 0).has PTE_COW = true) (fun _ => False)
          (uvmcopy tinyKernel old new (x.2.proc 0).sz x.2.mem)) (fun _ => False) (allocproc tinyKernel s))
    (r := run (kstep tinyKernel) (KState.start (booted tinyKernel)) [.userinit, .sbrk 0 4096]) (by decide +kernel)
  obtain ⟨⟨np, w⟩, ha, np, rfl, old, hold, new, hnew, hw, hcopy⟩ := halloc.exists_ok
  obtain ⟨⟨r, m⟩, hcopy, rfl, hcow⟩ := hcopy.exists_ok
  obtain ⟨r, w', hfork, hres⟩ := failed_fork_leaves_no_trace rfl kinit_booted hok hrun hp
  cases (fork_uvmcopy_failed ha hold hnew hcopy (by decide)).ok hfork
  rcases hres with ⟨-, htrace⟩ | hpos
  · exact ⟨s, w, w', np, old, new, m, hrun, hfree, ha, hold, hnew, hcopy, hw, hcow, hfork, htrace⟩
  · cases hpos

end Xv6
