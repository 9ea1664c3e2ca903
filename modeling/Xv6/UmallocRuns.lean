import Xv6.ActionRun
import Xv6.UmallocHeap

/-! Programs that call `malloc` and `free` in any order and write to the blocks they hold. -/

namespace Xv6.Umalloc

open ActionRun NextList

structure Use where
  ptr : Nat
  nbytes : UInt32
  deriving DecidableEq

structure Program where
  heap : Heap
  used : List Use

inductive Op where
  | malloc (nbytes : UInt32) (answer : Option Nat)
  | free (ap : Nat)
  | write (u : Use) (mem : Nat → Header)

def step (base fuel : Nat) (s : Program) : Op → Except Fault Program
  | .malloc nbytes answer => do
    let (h, ap) ← malloc base fuel answer s.heap nbytes
    .ok { heap := h, used := if ap = 0 then s.used else ⟨ap, nbytes⟩ :: s.used }
  | .free ap => do
    let h ← free fuel s.heap ap
    .ok { heap := h, used := s.used.eraseP (fun u => u.ptr = ap) }
  | .write u mem =>
    .ok { s with heap := { s.heap with mem := fun a =>
      if a + headerSize ≤ u.ptr ∨ u.ptr + u.nbytes.toNat ≤ a then s.heap.mem a else mem a } }

def start (base : Nat) (mem : Nat → Header) : Program :=
  { heap := { mem, freep := 0, regions := [], top := base + headerSize }, used := [] }

def Allowed (s : Program) : Op → Prop
  | .malloc nbytes _ => (units nbytes).toNat * headerSize < 2 ^ 31
  | .free ap => ∃ u ∈ s.used, u.ptr = ap
  | .write u _ => u ∈ s.used

instance (s : Program) (op : Op) : Decidable (Allowed s op) := by
  cases op <;> unfold Allowed <;> infer_instance

def Small (s : Program) : Op → Prop
  | .malloc nbytes answer =>
    answer = none ∨ total s.heap.regions + (HeapInv.ask (units nbytes)).toNat < 2 ^ 32
  | _ => True

instance (s : Program) (op : Op) : Decidable (Small s op) := by
  cases op <;> unfold Small <;> infer_instance

def Program.blocks (s : Program) : List Block :=
  s.used.map fun u => ⟨u.ptr - headerSize, (s.heap.size (u.ptr - headerSize)).toNat⟩

structure Shape (base : Nat) (s : Program) (F : List Block) : Prop where
  circle : Ring s.heap.ptr base (F.map Block.addr)
  rover : s.heap.freep ∈ base :: F.map Block.addr
  sizes : ∀ b ∈ F, (s.heap.size b.addr).toNat = b.size
  ascending : (base :: F.map Block.addr).Pairwise (· < ·)
  descent : (base :: F.map Block.addr).countP (fun p => s.heap.ptr p ≤ p) = 1
  coalesced : ∀ b ∈ F, ∀ c ∈ F, b.stop ≠ c.addr
  apart : (F ++ s.blocks).Pairwise fun b c => b.stop ≤ c.addr ∨ c.stop ≤ b.addr
  inside : ∀ b ∈ F ++ s.blocks, ∀ x, b.Covers x → ∃ r ∈ s.heap.regions, r.Covers x
  bytes : ∀ u ∈ s.used, headerSize ≤ u.ptr ∧
    u.nbytes.toNat + headerSize ≤ headerSize * (s.heap.size (u.ptr - headerSize)).toNat
  units : total F + total s.blocks = total s.heap.regions

def Sound (base : Nat) (s : Program) : Prop :=
  (s.heap.freep = 0 ∧ s.used = [] ∧ s.heap.regions = []) ∨ ∃ F, Shape base s F

def Use.block (u : Use) : Block := ⟨u.ptr - headerSize, (units u.nbytes).toNat⟩

def Program.Inv (base n : Nat) (s : Program) : Prop :=
  (0 < base ∧ base + headerSize ≤ s.heap.top ∧ s.heap.freep = 0 ∧ s.used = [] ∧ s.heap.regions = []) ∨
    total s.heap.regions < 2 ^ 32 ∧ (∀ u ∈ s.used, headerSize ≤ u.ptr) ∧
      ∃ F, HeapInv base s.heap F (s.used.map Use.block) ∧ F.length ≤ n

section Shape

variable {base n fuel : Nat} {s : Program} {F : List Block}

theorem blocks_eq (hi : HeapInv base s.heap F (s.used.map Use.block)) :
    s.blocks = s.used.map Use.block := by
  refine List.map_congr_left fun u hu => ?_
  exact congrArg (Block.mk _) (hi.used u.block (List.mem_map_of_mem hu)).1

theorem FreeList.descent {h : Heap} (hF : FreeList base h F) :
    (base :: F.map Block.addr).countP (fun p => h.ptr p ≤ p) = 1 := by
  have hlast : base ≤ last base (F.map Block.addr) := by
    rcases List.mem_cons.mp (last_mem base (F.map Block.addr)) with he | hm
    · exact Nat.le_of_eq he.symm
    · exact Nat.le_of_lt ((List.pairwise_cons.mp hF.sorted).1 _ hm)
  have hup : ∀ p ∈ (base :: F.map Block.addr).dropLast, ¬ decide (h.ptr p ≤ p) = true := by
    intro p hp
    have hlt := ((chain_append.mp hF.ring.2).1.rel_next hF.sorted hp).1
    simpa using hlt
  rw [← dropLast_append_last base (F.map Block.addr), List.countP_append,
    List.countP_eq_zero.mpr hup, List.countP_singleton, hF.ring.last_next, if_pos (by simpa using hlast)]

theorem HeapInv.shape (hi : HeapInv base s.heap F (s.used.map Use.block))
    (hptr : ∀ u ∈ s.used, headerSize ≤ u.ptr) : Shape base s F := by
  have hblocks := blocks_eq hi
  refine ⟨hi.list.ring, hi.freep, hi.list.size, hi.list.sorted, hi.list.descent, fun b hb c hc => ?_,
    hblocks ▸ hi.disjoint, fun b hb x hx => hi.covered (hblocks ▸ hb) hx, fun u hu => ⟨hptr u hu, ?_⟩,
    hblocks ▸ hi.units⟩
  · have hpos {d : Block} (hd : d ∈ F) : d.addr < d.stop := by
      have hp := hi.list.pos d hd
      unfold Block.stop headerSize
      omega
    by_cases hbc : b = c
    · rw [← hbc]
      exact Nat.ne_of_gt (hpos hb)
    · obtain ⟨pre, post, rfl⟩ := List.append_of_mem hb
      obtain ⟨_, hg, hpre⟩ := List.pairwise_append.mp hi.list.gap
      rcases List.mem_append.mp hc with hc' | hc'
      · have hlt := hpre c hc' b List.mem_cons_self
        have hb' := hpos hb
        have hc'' := hpos hc
        omega
      · have hlt := (List.pairwise_cons.mp hg).1 c ((List.mem_cons.mp hc').resolve_left (Ne.symm hbc))
        omega
  · have hsize := (hi.used u.block (List.mem_map_of_mem hu)).1
    change (s.heap.size (u.ptr - headerSize)).toNat = (Umalloc.units u.nbytes).toNat at hsize
    rw [hsize, units_toNat]
    unfold headerSize
    omega

theorem Program.Inv.sound (hi : s.Inv base n) : Sound base s := by
  rcases hi with ⟨_, _, h0⟩ | ⟨_, hptr, F, hi, _⟩
  · exact .inl h0
  · exact .inr ⟨F, hi.shape hptr⟩

end Shape

section Step

variable {base n fuel : Nat} {s : Program} {F : List Block}

theorem malloc_found {h : Heap} {k : UInt32} {answer : Option Nat}
    (hi : HeapInv base h F (s.used.map Use.block)) (hF : F.length ≤ n)
    (hptr : ∀ u ∈ s.used, headerSize ≤ u.ptr) (hlt : total h.regions < 2 ^ 32)
    (ha : Allowed s (.malloc k answer))
    (hs : answer = none ∨ total h.regions + (HeapInv.ask (units k)).toNat < 2 ^ 32)
    (hfuel : 2 * n + 2 < fuel) :
    ∃ h' ap, mallocLoop fuel answer (units k) fuel h h.freep (h.ptr h.freep) = .ok (h', ap) ∧
      Program.Inv base (n + 1) ⟨h', if ap = 0 then s.used else ⟨ap, k⟩ :: s.used⟩ := by
  have hk : 0 < (units k).toNat := by
    rw [units_toNat]
    exact Nat.succ_pos _
  have hint : (HeapInv.ask (units k)).toNat * headerSize < 2 ^ 31 := by
    unfold HeapInv.ask
    split
    · decide
    · exact ha
  obtain ⟨h', ap, hrun, hres⟩ := hi.mallocLoop hk hint hs hlt (Nat.lt_of_le_of_lt hF (by omega : n < fuel))
    (Nat.lt_of_le_of_lt (by omega) hfuel)
  refine ⟨h', ap, hrun, .inr ?_⟩
  rcases hres with ⟨rfl, rfl⟩ | ⟨hlt', F', hi', hap, hF'⟩
  · exact ⟨hlt, hptr, F, hi, by omega⟩
  · have hap0 : ap ≠ 0 := by
      unfold headerSize at hap
      omega
    rw [if_neg hap0]
    refine ⟨hlt', fun u hu => ?_, F', hi', by omega⟩
    rcases List.mem_cons.mp hu with rfl | hu
    · exact hap
    · exact hptr u hu

theorem Program.Inv.step {op : Op} (hi : s.Inv base n) (ha : Allowed s op) (hs : Small s op)
    (hfuel : 2 * n + 2 < fuel) : ∃ t, step base fuel s op = .ok t ∧ t.Inv base (n + 1) := by
  cases op with
  | malloc k answer =>
    rcases hi with ⟨hbase, htop, hfreep, hused, hreg⟩ | ⟨hlt, hptr, F, hi, hF⟩
    · have hi₀ := HeapInv.empty (A := s.used.map Use.block) (by rw [hused]; rfl) hbase htop hreg
      obtain ⟨h', ap, hrun, hinv⟩ := malloc_found hi₀ (Nat.zero_le n)
        (by simp [hused]) (by change total s.heap.regions < _; rw [hreg]; decide) ha hs hfuel
      refine ⟨_, ?_, hinv⟩
      simp only [Umalloc.step, malloc, opened, if_pos hfreep, hrun]
      rfl
    · have hne := hi.node_pos hi.freep
      obtain ⟨h', ap, hrun, hinv⟩ := malloc_found hi hF hptr hlt ha hs hfuel
      refine ⟨_, ?_, hinv⟩
      simp only [Umalloc.step, malloc, opened, if_neg hne, hrun]
      rfl
  | free ap =>
    obtain ⟨u, hu, rfl⟩ := ha
    rcases hi with ⟨_, _, _, hused, _⟩ | ⟨hlt, hptr, F, hi, hF⟩
    · rw [hused] at hu
      cases hu
    · obtain ⟨v, l₁, l₂, _, hv, hsplit, herase⟩ :=
        List.exists_of_eraseP (p := fun w : Use => w.ptr = u.ptr) hu (by simp)
      rw [hsplit, List.map_append, List.map_cons] at hi
      obtain ⟨h', F', hrun, hi', hreg, hF'⟩ := hi.release hlt (by omega : F.length < fuel)
      have hvu : v.ptr = u.ptr := of_decide_eq_true hv
      have hback : v.block.addr + headerSize = u.ptr := by
        have hle := hptr u hu
        change v.ptr - headerSize + headerSize = u.ptr
        omega
      rw [hback] at hrun
      refine ⟨⟨h', l₁ ++ l₂⟩, ?_, .inr ⟨hreg ▸ hlt, fun w hw => hptr w ?_, F', ?_, by omega⟩⟩
      · simp only [Umalloc.step, hrun, herase]
        rfl
      · rw [hsplit]
        simp only [List.mem_append, List.mem_cons] at hw ⊢
        tauto
      · rw [List.map_append]
        exact hi'
  | write u mem =>
    refine ⟨_, rfl, ?_⟩
    rcases hi with ⟨_, _, _, hused, _⟩ | ⟨hlt, hptr, F, hi, hF⟩
    · rw [Allowed, hused] at ha
      cases ha
    · refine .inr ⟨hlt, hptr, F, hi.congr (fun x hx => if_pos ?_) rfl rfl rfl, by omega⟩
      have hle := hptr u ha
      have hout := hi.header_outside (List.mem_map_of_mem ha) hx
      have hunits := units_toNat u.nbytes
      change x ≤ u.ptr - headerSize ∨ u.ptr - headerSize + headerSize * (units u.nbytes).toNat ≤ x at hout
      rw [hunits] at hout
      unfold headerSize at hle hout ⊢
      omega

theorem Program.Inv.run {ops : List Op} (hi : s.Inv base n) (hfuel : 2 * (n + ops.length) < fuel)
    (hops : Along (Umalloc.step base fuel) (fun s op => Allowed s op ∧ Small s op) s ops) :
    ∃ t, ActionRun.run (Umalloc.step base fuel) s ops = .ok t ∧ t.Inv base (n + ops.length) := by
  induction ops generalizing s n with
  | nil => exact ⟨s, rfl, hi⟩
  | cons op ops ih =>
    rw [List.length_cons] at hfuel ⊢
    obtain ⟨⟨ha, hs⟩, hrest⟩ := hops
    obtain ⟨t, hstep, ht⟩ := hi.step ha hs (by omega : 2 * n + 2 < fuel)
    obtain ⟨t', hrun, ht'⟩ := ih ht (by omega) (hrest t hstep)
    refine ⟨t', ?_, ?_⟩
    · rw [ActionRun.run, hstep]
      exact hrun
    · rwa [Nat.add_right_comm] at ht'

/-- While what `sbrk` has given stays below `2^32` units, no call gets stuck and the heap is
sound after each. No loop takes more than `2 * ops.length + 1` rounds. -/
theorem heap_sound {mem : Nat → Header} {ops : List Op} (hbase : 0 < base)
    (hfuel : 2 * ops.length < fuel)
    (hops : Along (step base fuel) (fun s op => Allowed s op ∧ Small s op) (start base mem) ops) :
    ∃ t, run (step base fuel) (start base mem) ops = .ok t ∧ Sound base t := by
  have hinit : (start base mem).Inv base 0 := .inl ⟨hbase, Nat.le_refl _, rfl, rfl, rfl⟩
  obtain ⟨t, hrun, ht⟩ := hinit.run (by omega) hops
  exact ⟨t, hrun, ht.sound⟩

def twoBlocks : List Op :=
  [.malloc 100 (some 0), .malloc 5000 (some 32), .free 65456, .malloc 40 none]

theorem heap_sound_twoBlocks : 2 * twoBlocks.length < 20 ∧
    (∃ t, run (step 16 20) (start 16 fun _ => ⟨0, 0⟩) twoBlocks = .ok t ∧ Sound 16 t) :=
  ⟨by decide, heap_sound (by decide) (by decide) (by decide +kernel)⟩

end Step

theorem Sound.single {base x : Nat} {s : Program} (hs : Sound base s) (hused : s.used = [])
    (hfreep : s.heap.freep ≠ 0) (hx : s.heap.ptr base = x) (hb : s.heap.ptr x = base) (hne : x ≠ base) :
    (s.heap.size x).toNat = total s.heap.regions := by
  rcases hs with ⟨h0, _⟩ | ⟨F, hF⟩
  · exact absurd h0 hfreep
  · have hblocks : s.blocks = [] := by
      rw [Program.blocks, hused]
      rfl
    have hunits := hF.units
    rw [hblocks, total_nil, Nat.add_zero] at hunits
    obtain ⟨hnodup, hchain⟩ := hF.circle
    cases F with
    | nil => exact absurd (hx.symm.trans hchain.1) hne
    | cons b F =>
      obtain ⟨hbx, hchain⟩ := hchain
      have hbx' : b.addr = x := hbx.symm.trans hx
      cases F with
      | nil =>
        rw [← hunits, total_cons, total_nil, ← hbx']
        exact hF.sizes b List.mem_cons_self
      | cons c F =>
        have hc : c.addr = base := by
          rw [← hchain.1, hbx', hb]
        simp [hc] at hnodup

/-- Adjacent regions of `2^27 - 1` units are allocated one by one, then all freed. -/
def overflow : List Op :=
  List.replicate 33 (.malloc 2147483616 (some 0)) ++
    (List.range 33).map fun i => .free (48 + i * 2147483632)

/-- The 33 regions become one free block, whose size does not fit in a `uint`. -/
theorem heap_overflow : ∃ t, Along (step 16 200) Allowed (start 16 fun _ => ⟨0, 0⟩) overflow ∧
    run (step 16 200) (start 16 fun _ => ⟨0, 0⟩) overflow = .ok t ∧ ¬ Sound 16 t := by
  have hal : Along (step 16 200) Allowed (start 16 fun _ => ⟨0, 0⟩) overflow := by decide +kernel
  obtain ⟨t, hrun, hused, hfreep, hx, hb, hne⟩ := Ends.exists_ok (P := fun t : Program => t.used = [] ∧
    t.heap.freep ≠ 0 ∧ t.heap.ptr 16 = 32 ∧ t.heap.ptr 32 = 16 ∧
      (t.heap.size 32).toNat ≠ total t.heap.regions)
    (r := run (step 16 200) (start 16 fun _ => ⟨0, 0⟩) overflow) (by decide +kernel)
  exact ⟨t, hal, hrun, fun hs => hne (hs.single hused hfreep hx hb (by decide))⟩

end Xv6.Umalloc
