import Xv6.ActionRun
import Xv6.Kalloc

/-! Callers of the page allocator, and what a `kfree` too many does. -/

namespace Xv6

open ActionRun Function StateProg

inductive AllocOp where
  | kalloc
  | increaseCount (pa : Nat)
  | kfree (pa : Nat)

/-- `refs` counts the references to a page that have been handed out and not released. -/
structure AllocState where
  mem : PhysMem
  refs : Nat → Nat

def allocStep (L : Layout) (s : AllocState) : AllocOp → Except Panic AllocState
  | .kalloc =>
    match kalloc s.mem with
    | .ok (some pa, m) => .ok ⟨m, update s.refs pa (s.refs pa + 1)⟩
    | .ok (none, m) => .ok ⟨m, s.refs⟩
    | .error e => .error e
  | .increaseCount pa =>
    match increaseCount pa s.mem with
    | .ok (_, m) => .ok ⟨m, update s.refs pa (s.refs pa + 1)⟩
    | .error e => .error e
  | .kfree pa =>
    match kfree L pa s.mem with
    | .ok (_, m) => .ok ⟨m, update s.refs pa (s.refs pa - 1)⟩
    | .error e => .error e

def AllocOp.InRange (L : Layout) : AllocOp → Prop
  | .kalloc => True
  | .increaseCount pa => L.InRange pa
  | .kfree pa => L.InRange pa

structure AllocState.Consistent (L : Layout) (s : AllocState) : Prop where
  nodup : s.mem.freelist.Nodup
  free : ∀ pa ∈ s.mem.freelist, s.refs pa = 0
  counted : ∀ pa, L.InRange pa → 0 < s.refs pa → s.mem.counter (pa2cowIndex pa) ≠ 0

/-- The caller has a reference to the page it releases or shares, and the counter has room. -/
def AllocState.Holds (s : AllocState) : AllocOp → Prop
  | .kalloc => True
  | .increaseCount pa => 0 < s.refs pa ∧ s.refs pa < 255
  | .kfree pa => 0 < s.refs pa

instance (s : AllocState) : DecidablePred s.Holds
  | .kalloc => isTrue trivial
  | .increaseCount _ => inferInstanceAs (Decidable (_ ∧ _))
  | .kfree _ => inferInstanceAs (Decidable (_ < _))

variable {L : Layout} {m m₀ : PhysMem} {s w : AllocState} {op : AllocOp} {ops : List AllocOp} {pa : Nat}

theorem kalloc_cons {rest : List Nat} (h : m.freelist = pa :: rest) :
    kalloc m = .ok (some pa, ⟨update m.page pa (fun _ => 5),
      update m.counter (pa2cowIndex pa) (m.counter (pa2cowIndex pa) + 1), rest⟩) := by
  obtain ⟨page, counter, freelist⟩ := m
  simp only at h
  subst h
  rfl

theorem increaseCount_eq (pa : Nat) (m : PhysMem) : increaseCount pa m = .ok (⟨⟩, { m with
    counter := update m.counter (pa2cowIndex pa) (m.counter (pa2cowIndex pa) + 1) }) := rfl

theorem kfree_of_zero (hr : L.InRange pa) (h0 : m.counter (pa2cowIndex pa) = 0) :
    Wp (kfree L pa) (fun _ m' => m' = { m with
      counter := update m.counter (pa2cowIndex pa) 255 }) m := by
  have hguard : ¬ (pa % PGSIZE ≠ 0 ∨ pa < L.kend ∨ PHYSTOP ≤ pa) := by
    obtain ⟨h1, h2, h3⟩ := hr
    omega
  have hsub : m.counter (pa2cowIndex pa) - 1 = 255 := by
    rw [h0]
    rfl
  have hdec : decreaseCount pa m = .ok ((((update m.counter (pa2cowIndex pa)
      (m.counter (pa2cowIndex pa) - 1)) (pa2cowIndex pa)).toNat : Int), { m with
        counter := update m.counter (pa2cowIndex pa) (m.counter (pa2cowIndex pa) - 1) }) := rfl
  rw [update_self, hsub] at hdec
  rw [Xv6.kfree, if_neg hguard]
  apply wp_bind
  refine ⟨_, _, hdec, ?_⟩
  beta_reduce
  rw [if_neg (by decide), if_pos (by decide)]
  exact wp_pure rfl

theorem AllocInv.consistent (h : AllocInv L s.mem s.refs) : s.Consistent L where
  nodup := h.nodup
  free pa hpa := ((h.free pa).mp hpa).2
  counted pa hr hpos hz := by
    have hc := h.count pa hr
    rw [hz, UInt8.toNat_zero] at hc
    omega

theorem AllocInv.allocStep (h : AllocInv L s.mem s.refs) (hh : s.Holds op) :
    ∃ w, Xv6.allocStep L s op = .ok w ∧ AllocInv L w.mem w.refs := by
  cases op with
  | kalloc =>
    obtain ⟨r, m', hm, hr⟩ := h.kalloc
    cases r with
    | none =>
      refine ⟨⟨m', s.refs⟩, by simp only [Xv6.allocStep, hm], ?_⟩
      rw [hr.2]
      exact h
    | some pa =>
      refine ⟨⟨m', update s.refs pa (s.refs pa + 1)⟩, by simp only [Xv6.allocStep, hm], ?_⟩
      rw [hr.2.1]
      exact hr.2.2.1
  | increaseCount pa =>
    obtain ⟨_, m', hm, hr⟩ := h.increase hh.1 hh.2
    exact ⟨⟨m', update s.refs pa (s.refs pa + 1)⟩, by simp only [Xv6.allocStep, hm], hr.1⟩
  | kfree pa =>
    obtain ⟨_, m', hm, hr⟩ := h.kfree hh
    exact ⟨⟨m', update s.refs pa (s.refs pa - 1)⟩, by simp only [Xv6.allocStep, hm], hr.1⟩

theorem run_kalloc_until {pre post : List Nat} (hf : s.mem.freelist = pre ++ pa :: post)
    (hr : L.InRange pa) (hpre : ∀ x ∈ pre, L.InRange x ∧ x ≠ pa) :
    ∃ w, run (allocStep L) s (List.replicate (pre.length + 1) .kalloc) = .ok w ∧ 0 < w.refs pa ∧
      w.mem.counter (pa2cowIndex pa) = s.mem.counter (pa2cowIndex pa) + 1 := by
  induction pre generalizing s with
  | nil =>
    refine ⟨⟨⟨update s.mem.page pa (fun _ => 5),
      update s.mem.counter (pa2cowIndex pa) (s.mem.counter (pa2cowIndex pa) + 1), post⟩,
      update s.refs pa (s.refs pa + 1)⟩, ?_, ?_, update_self ..⟩
    · simp only [List.length_nil, Nat.zero_add, List.replicate_one, run, allocStep, kalloc_cons hf]
    · dsimp only
      rw [update_self]
      omega
  | cons x pre ih =>
    obtain ⟨hx, hne⟩ := hpre x (List.mem_cons_self ..)
    obtain ⟨w, hw, hpos, hc⟩ := ih (s := ⟨⟨update s.mem.page x (fun _ => 5),
      update s.mem.counter (pa2cowIndex x) (s.mem.counter (pa2cowIndex x) + 1), pre ++ pa :: post⟩,
      update s.refs x (s.refs x + 1)⟩) rfl (fun y hy => hpre y (List.mem_cons_of_mem _ hy))
    refine ⟨w, ?_, hpos, ?_⟩
    · simp only [List.length_cons, List.replicate_succ, run, allocStep, kalloc_cons hf]
      exact hw
    · rw [hc]
      dsimp only
      rw [update_of_ne]
      exact fun he => hne (hx.cowIndex_inj hr he.symm)

/-- What a call without a reference leads to: if not at once, then after some more `kalloc`
calls the allocator is inconsistent, and nothing has panicked. -/
theorem AllocInv.inconsistent (h : AllocInv L s.mem s.refs) (hr : op.InRange L) (hnot : ¬ s.Holds op) :
    ∃ more w, run (Xv6.allocStep L) s (op :: more) = .ok w ∧ ¬ w.Consistent L := by
  cases op with
  | kalloc => exact absurd trivial hnot
  | increaseCount pa =>
    refine ⟨[], ⟨{ s.mem with
      counter := update s.mem.counter (pa2cowIndex pa) (s.mem.counter (pa2cowIndex pa) + 1) },
      update s.refs pa (s.refs pa + 1)⟩, by simp only [run, Xv6.allocStep, increaseCount_eq],
      fun hc => ?_⟩
    have hrefs : update s.refs pa (s.refs pa + 1) pa = s.refs pa + 1 := update_self ..
    by_cases hz : s.refs pa = 0
    · have hfree := hc.free pa ((h.free pa).mpr ⟨hr, hz⟩)
      dsimp only at hfree
      omega
    · have hge : 255 ≤ s.refs pa := by
        by_contra hlt
        exact hnot ⟨Nat.pos_of_ne_zero hz, by omega⟩
      have hcount := h.count pa hr
      have hlt := (s.mem.counter (pa2cowIndex pa)).toNat_lt
      refine hc.counted pa hr (by dsimp only; omega) ?_
      change update s.mem.counter (pa2cowIndex pa) (s.mem.counter (pa2cowIndex pa) + 1) (pa2cowIndex pa) = 0
      rw [update_self]
      apply UInt8.toNat_inj.mp
      rw [UInt8.toNat_add, hcount]
      have he : s.refs pa = 255 := by omega
      rw [he]
      rfl
  | kfree pa =>
    have hz : s.refs pa = 0 := by
      by_contra hpos
      exact hnot (Nat.pos_of_ne_zero hpos)
    have hcount := h.count pa hr
    rw [hz] at hcount
    have h0 : s.mem.counter (pa2cowIndex pa) = 0 := UInt8.toNat_inj.mp hcount
    obtain ⟨pre, post, hf⟩ := List.append_of_mem ((h.free pa).mpr ⟨hr, hz⟩)
    have hnd := h.nodup
    rw [hf, List.nodup_append] at hnd
    obtain ⟨w, hw, hpos, hc⟩ := run_kalloc_until (L := L) (s := ⟨{ s.mem with
        counter := update s.mem.counter (pa2cowIndex pa) 255 },
        update s.refs pa (s.refs pa - 1)⟩) hf hr (fun x hx =>
      ⟨((h.free x).mp (by rw [hf]; exact List.mem_append_left _ hx)).1,
        fun he => hnd.2.2 x hx pa (List.mem_cons_self ..) he⟩)
    obtain ⟨⟨⟩, m', hm', rfl⟩ := kfree_of_zero hr h0
    refine ⟨List.replicate (pre.length + 1) .kalloc, w, ?_, fun hcons => hcons.counted pa hr hpos ?_⟩
    · simp only [run, Xv6.allocStep, hm']
      exact hw
    · rw [hc]
      dsimp only
      rw [update_self]
      rfl

/-- With callers that keep to their references the allocator stays consistent and nothing
panics; and one call without a reference is enough to make it inconsistent. -/
theorem alloc_consistent_while_held (hfree : m₀.freelist = []) (hm : kinit L m₀ = .ok ((), m)) :
    (∀ ops, Along (allocStep L) AllocState.Holds ⟨m, fun _ => 0⟩ ops →
      ∃ s, run (allocStep L) ⟨m, fun _ => 0⟩ ops = .ok s ∧ s.Consistent L) ∧
    ∀ ops s op, Along (allocStep L) AllocState.Holds ⟨m, fun _ => 0⟩ ops →
      run (allocStep L) ⟨m, fun _ => 0⟩ ops = .ok s → op.InRange L → ¬ s.Holds op →
      ∃ more w, run (allocStep L) s (op :: more) = .ok w ∧ ¬ w.Consistent L := by
  have hinit : AllocInv L m (fun _ => 0) := (kinit_free (L := L) hfree).ok hm
  have hrun : ∀ (ops : List AllocOp) (s : AllocState), AllocInv L s.mem s.refs →
      Along (allocStep L) AllocState.Holds s ops →
      ∃ w, run (allocStep L) s ops = .ok w ∧ AllocInv L w.mem w.refs := by
    intro ops
    induction ops with
    | nil => exact fun s hs _ => ⟨s, rfl, hs⟩
    | cons op ops ih =>
      intro s hs hal
      obtain ⟨u, hu, hinv⟩ := hs.allocStep hal.1
      obtain ⟨w, hw, hinvw⟩ := ih u hinv (hal.2 u hu)
      exact ⟨w, by simp only [run, hu, hw], hinvw⟩
  refine ⟨fun ops hal => ?_, fun ops s op hal hs hr hnot => ?_⟩
  · obtain ⟨w, hw, hinv⟩ := hrun ops _ hinit hal
    exact ⟨w, hw, hinv.consistent⟩
  · obtain ⟨w, hw, hinv⟩ := hrun ops _ hinit hal
    rw [hs, Except.ok.injEq] at hw
    subst hw
    exact hinv.inconsistent hr hnot

/-- The page that is first in the free list after boot. -/
abbrev lastPage : Nat := PHYSTOP - PGSIZE

/-- A page is shared, and freed by both of its users. -/
def freedTwice : List AllocOp := [.kalloc, .increaseCount lastPage, .kfree lastPage, .kfree lastPage]

theorem alloc_consistent_freedTwice : ∃ s,
    run (allocStep smallKernel) ⟨booted smallKernel, fun _ => 0⟩ freedTwice = .ok s ∧
    s.refs lastPage = 0 ∧ lastPage ∈ s.mem.freelist ∧ s.Consistent smallKernel := by
  obtain ⟨s, hs, hc⟩ := (alloc_consistent_while_held (L := smallKernel) rfl kinit_booted).1 freedTwice
    (by decide +kernel)
  have hends : Ends (fun s : AllocState => s.refs lastPage = 0 ∧ lastPage ∈ s.mem.freelist) (fun _ => False)
      (run (allocStep smallKernel) ⟨booted smallKernel, fun _ => 0⟩ freedTwice) := by decide +kernel
  obtain ⟨hrefs, hmem⟩ := hends.of_ok hs
  exact ⟨s, hs, hrefs, hmem, hc⟩

/-- A page that is free and freed again is handed out with its counter at 0. -/
theorem kfree_of_free_page_returns : ∃ s, smallKernel.InRange lastPage ∧
    run (allocStep smallKernel) ⟨booted smallKernel, fun _ => 0⟩ [.kfree lastPage, .kalloc] = .ok s ∧
    s.refs lastPage = 1 ∧ s.mem.counter (pa2cowIndex lastPage) = 0 := by
  obtain ⟨s, hs, hrefs⟩ := Ends.exists_ok (P := fun s : AllocState => s.refs lastPage = 1 ∧
    s.mem.counter (pa2cowIndex lastPage) = 0) (r := run (allocStep smallKernel)
      ⟨booted smallKernel, fun _ => 0⟩ [.kfree lastPage, .kalloc]) (by decide +kernel)
  exact ⟨s, by decide, hs, hrefs⟩

end Xv6
