import Xv6.AddressSpaces

/-! The two ways user memory is written: `copyout` by the kernel and stores by user code. -/

namespace Xv6

open StateProg

variable {L : Layout} {m : PhysMem} {env : Env} {t : Table}

theorem TableInv.copyout_byte (h : TableInv L m env t) (hfree : m.freelist ≠ []) (va : Nat)
    (b : UInt8) :
    Wp (copyout L t.root va [b]) (fun r _ =>
      r = if va ≠ 0 ∧ (t.leaf (va / PGSIZE)).mayWrite = true then 0 else -1) m := by
  unfold copyout
  rw [List.length_singleton, Xv6.copyoutLoop, if_neg (List.cons_ne_nil b [])]
  apply wp_bind
  obtain ⟨r, m₁, hrun, hr⟩ := h.cowPageFaultHandler va
  refine ⟨r, m₁, hrun, ?_⟩
  rcases hr with ⟨rfl, rfl, hbad⟩ | ⟨rfl, hne, _, hmay, t₁, hinv, hag, _, _, _⟩
  · have hnot : ¬ (va ≠ 0 ∧ (t.leaf (va / PGSIZE)).mayWrite = true) := by
      rintro ⟨hne, hmay⟩
      rcases hbad with hz | hge | hf | hf
      · exact hne hz
      · rw [h.fits.leaf_of_ge hge] at hmay
        exact absurd hmay (by decide)
      · rw [hf] at hmay
        cases hmay
      · exact hfree hf
    rw [if_pos rfl, if_neg hnot]
    exact wp_pure rfl
  · rw [if_neg (by decide), ← hag.root, if_pos ⟨hne, hmay⟩]
    obtain ⟨hv, hu⟩ := Pte.mayWrite_access ((hag.mayWrite (va / PGSIZE)).trans hmay)
    have haddr := hinv.walkaddr_eq (pgRoundDown va)
    rw [pgRoundDown_div, hv, hu] at haddr
    apply wp_bind
    refine ⟨_, m₁, haddr, ?_⟩
    simp only [Bool.and_self, if_true]
    apply wp_bind_modify
    exact wp_pure rfl

/-- For an address other than 0 a one-byte `copyout` and a store both succeed exactly on the
pages with `PTE_V`, `PTE_U` and one of `PTE_W` and `PTE_COW`. The fault handler takes 0 for
an invalid address: `copyout` to it always fails, and a store to it succeeds only if `PTE_W`
is set, so that no fault is taken. -/
theorem copyout_agrees_with_store (h : TableInv L m env t) (hfree : m.freelist ≠ []) (va : Nat)
    (b : UInt8) :
    (∃ m₁, copyout L t.root va [b] m =
      .ok (if va ≠ 0 ∧ (t.leaf (va / PGSIZE)).mayWrite = true then 0 else -1, m₁)) ∧
    ∀ tries, ∃ m₂, userStore L t.root va b (tries + 2) m =
      .ok (if (va ≠ 0 ∨ (t.leaf (va / PGSIZE)).has PTE_W = true) ∧
        (t.leaf (va / PGSIZE)).mayWrite = true then .stored else .killed, m₂) := by
  constructor
  · obtain ⟨r, m₁, hrun, rfl⟩ := h.copyout_byte hfree va b
    exact ⟨m₁, hrun⟩
  · intro tries
    obtain ⟨s, m₂, hrun, hs⟩ := h.userStore va b tries
    refine ⟨m₂, ?_⟩
    rw [hrun]
    rcases hs with ⟨rfl, hmay, _, _, hor⟩ | ⟨rfl, rfl, _, hw, hbad⟩
    · rw [if_pos ⟨hor.symm, hmay⟩]
    · have hnot : ¬ ((va ≠ 0 ∨ (t.leaf (va / PGSIZE)).has PTE_W = true) ∧
          (t.leaf (va / PGSIZE)).mayWrite = true) := by
        rintro ⟨hor, hmay⟩
        have hnw : (t.leaf (va / PGSIZE)).has PTE_W ≠ true := by
          intro hh
          rw [hw hh] at hmay
          cases hmay
        rcases hbad with hz | hf | hf
        · exact hor.elim (fun hne => hne hz) hnw
        · rw [hf] at hmay
          cases hmay
        · exact hfree hf
      rw [if_neg hnot]

theorem copyout_agrees_with_store_at_one : ∃ m env t, TableInv smallKernel m env t ∧
    m.freelist ≠ [] ∧ (∃ m₁, copyout smallKernel t.root 1 [7] m = .ok (0, m₁)) ∧
    ∀ tries, ∃ m₂, userStore smallKernel t.root 1 7 (tries + 2) m = .ok (.stored, m₂) := by
  obtain ⟨m, env, t, hinv, hfree, hw, hmay⟩ := exists_writable_zero
  have hboth := copyout_agrees_with_store hinv hfree 1 7
  rw [show 1 / PGSIZE = 0 by decide, hmay] at hboth
  exact ⟨m, env, t, hinv, hfree, hboth⟩

/-- On a writable page 0 a store to address 0 succeeds and `copyout` fails. -/
theorem copyout_fails_where_store_succeeds : ∃ m env t, TableInv smallKernel m env t ∧
    m.freelist ≠ [] ∧ (t.leaf 0).mayWrite = true ∧
    (∃ m₁, copyout smallKernel t.root 0 [7] m = .ok (-1, m₁)) ∧
    ∃ m₂, userStore smallKernel t.root 0 7 2 m = .ok (.stored, m₂) := by
  obtain ⟨m, env, t, hinv, hfree, hw, hmay⟩ := exists_writable_zero
  obtain ⟨r, m₁, hrun, hr⟩ := hinv.copyout_byte hfree 0 7
  obtain ⟨s, m₂, hstore, hs⟩ := hinv.userStore 0 7 0
  refine ⟨m, env, t, hinv, hfree, hmay, ⟨m₁, ?_⟩, m₂, ?_⟩
  · rw [hrun, hr, if_neg (fun hh => hh.1 rfl)]
  · rcases hs with ⟨rfl, _⟩ | ⟨_, _, _, hnw, _⟩
    · exact hstore
    · have hf := hnw hw
      rw [show 0 / PGSIZE = 0 by decide, hmay] at hf
      cases hf

end Xv6
