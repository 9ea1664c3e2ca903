import Xv6.AddressSpaces

/-! `copyinstr` byte by byte: what it writes at `dst` and which pages it looks at, for strings
that end anywhere. -/

namespace Xv6

open ActionRun StateProg

variable {L : Layout} {m : PhysMem} {env : Env} {t : Table}

/-- `copyinstr` succeeds exactly if a string of less than `max` bytes stands at `srcva` in pages
the user can read. Then it has written that string and its NUL. It never writes more than `max`
bytes and never looks at a page behind that of a NUL. -/
theorem copyinstr_exact (h : TableInv L m env t) (srcva max : Nat) :
    Wp (copyinstr t.root srcva max) (fun r m' => m' = m ∧ r.out.length ≤ max ∧
      (r.ret = 0 ∧ (∃ s, (t.view m.page).HasString srcva s ∧ s.length < max ∧ r.out = s ++ [0]) ∨
        r.ret = -1 ∧ ¬ ∃ s, (t.view m.page).HasString srcva s ∧ s.length < max) ∧
      ∀ x, srcva ≤ x → (t.view m.page).load x = some 0 →
        ∀ va ∈ r.pages, va / PGSIZE ≤ x / PGSIZE) m := by
  refine (h.copyinstrLoop max srcva max [] le_rfl).mono fun r m' hr => ?_
  obtain ⟨rfl, ⟨bytes, hout, hle⟩, hres, hpages, -⟩ := hr
  refine ⟨rfl, by rw [hout]; exact hle, ?_, fun x hx hl va hva =>
    Nat.div_le_div_right (hpages x hx hl va hva)⟩
  cases hs : (t.view m'.page).readString srcva max with
  | none =>
    rw [hs] at hres
    refine .inr ⟨hres, fun ⟨s, hstr⟩ => ?_⟩
    rw [UserMem.readString_iff.mpr hstr] at hs
    cases hs
  | some s =>
    rw [hs] at hres
    obtain ⟨hstr, hlt⟩ := UserMem.readString_iff.mp hs
    exact .inl ⟨hres.1, s, hstr, hlt, hres.2⟩

/-- A string of three bytes that begins in the first page of the process and ends in the second. -/
theorem copyinstr_exact_across_pages : ∃ (m : PhysMem) (t : Table) (r : StrCopy),
    copyinstr t.root 4094 14 m = .ok (r, m) ∧ r = ⟨0, [65, 66, 67, 0], [0, 4096]⟩ ∧
    (t.view m.page).HasString 4094 [65, 66, 67] := by
  obtain ⟨s, hg, hrun, root, hroot, hcopy⟩ := Good.exists_small (P := fun s => (s.proc 0).state = .runnable ∧
    ∃ root ∈ (s.proc 0).pagetable, Ends (fun r => r.1.ret = 0 ∧ r.1.out = [65, 66, 67, 0] ∧
      r.1.pages = [0, 4096]) (fun _ => False) (copyinstr root 4094 14 s.mem))
    [.sbrk 0 4096, .copyout 0 4094 [65, 66, 67]] (by simp) (by decide +kernel)
  obtain ⟨σ, t, hp, ht⟩ := hg.exists_table hrun
  cases (hp.holds ht).1.symm.trans hroot
  obtain ⟨⟨r, m⟩, hrun, hret, hout, hpages⟩ := hcopy.exists_ok
  obtain ⟨rfl, -, ⟨-, str, hstr, -, hstr'⟩ | ⟨hneg, -⟩, -⟩ :=
    (copyinstr_exact (hp.tableInv ht) 4094 14).ok hrun
  · rw [hout] at hstr'
    cases List.append_cancel_right (show [65, 66, 67] ++ [0] = str ++ [0] from hstr')
    exact ⟨s.mem, t, r, hrun, by rw [← hret, ← hout, ← hpages], hstr⟩
  · rw [hret] at hneg
    cases hneg

end Xv6
