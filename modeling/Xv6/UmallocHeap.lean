import Mathlib.Data.List.Pairwise
import Xv6.UmallocList

/-! `malloc` on a well-formed heap. -/

namespace Xv6.Umalloc

open NextList

variable {base fuel x : Nat} {h h' : Heap} {F F' A pre post l : List Block} {b c y : Block} {k : UInt32}

theorem cover_pos (hb : b ∈ l) (hx : b.Covers x) : 1 ≤ cover l x :=
  List.countP_pos_iff.mpr ⟨b, hb, decide_eq_true hx⟩

theorem exists_of_cover (hx : cover l x ≠ 0) : ∃ b ∈ l, b.Covers x := by
  obtain ⟨b, hb, hc⟩ := List.countP_pos_iff.mp (Nat.pos_of_ne_zero hx)
  exact ⟨b, hb, of_decide_eq_true hc⟩

structure HeapInv (base : Nat) (h : Heap) (F A : List Block) : Prop where
  list : FreeList base h F
  freep : h.freep ∈ base :: F.map Block.addr
  used : ∀ b ∈ A, (h.size b.addr).toNat = b.size ∧ 0 < b.size
  tile : ∀ x, cover F x + cover A x = cover h.regions x
  once : ∀ x, cover h.regions x ≤ 1
  region : ∀ r ∈ h.regions, base + headerSize ≤ r.addr ∧ r.stop ≤ h.top
  low : 0 < base ∧ base + headerSize ≤ h.top
  units : total F + total A = total h.regions

namespace HeapInv

theorem covered (hi : HeapInv base h F A) (hb : b ∈ F ++ A) {x : Nat} (hx : b.Covers x) :
    ∃ r ∈ h.regions, r.Covers x := by
  apply exists_of_cover
  have hpos := cover_pos hb hx
  rw [cover_append, hi.tile] at hpos
  omega

theorem pos (hi : HeapInv base h F A) (hb : b ∈ F ++ A) : 0 < b.size := by
  rcases List.mem_append.mp hb with hb | hb
  · exact hi.list.pos b hb
  · exact (hi.used b hb).2

theorem within (hi : HeapInv base h F A) (hb : b ∈ F ++ A) :
    base + headerSize ≤ b.addr ∧ b.stop ≤ h.top := by
  have hp := hi.pos hb
  have hlt : b.addr < b.stop := by
    unfold Block.stop headerSize
    omega
  obtain ⟨r, hr, hcr⟩ := hi.covered hb (x := b.addr) ⟨Nat.le_refl _, hlt⟩
  obtain ⟨r', hr', hcr'⟩ := hi.covered hb (x := b.stop - 1) ⟨by omega, by omega⟩
  have h1 := hi.region r hr
  have h2 := hi.region r' hr'
  obtain ⟨hc1, _⟩ := hcr
  obtain ⟨_, hc2⟩ := hcr'
  omega

theorem apart_of_cover {x : Block} (hx : 0 < x.size) (hy : 0 < y.size)
    (hc : ∀ z, ¬ (x.Covers z ∧ y.Covers z)) : x.stop ≤ y.addr ∨ y.stop ≤ x.addr := by
  by_contra hn
  have h1 : x.addr < x.stop := by unfold Block.stop headerSize; omega
  have h2 : y.addr < y.stop := by unfold Block.stop headerSize; omega
  apply hc (max x.addr y.addr)
  constructor
  · exact ⟨by omega, by omega⟩
  · exact ⟨by omega, by omega⟩

theorem pairwise_apart (hpos : ∀ b ∈ l, 0 < b.size) (hl : ∀ x, cover l x ≤ 1) :
    l.Pairwise (fun b c => b.stop ≤ c.addr ∨ c.stop ≤ b.addr) := by
  induction l with
  | nil => exact List.Pairwise.nil
  | cons b l ih =>
    refine List.pairwise_cons.mpr ⟨fun c hc => ?_, ih (fun c hc => hpos c (List.mem_cons_of_mem _ hc))
      (fun x => ?_)⟩
    · refine apart_of_cover (hpos b List.mem_cons_self) (hpos c (List.mem_cons_of_mem _ hc))
        fun z ⟨h1, h2⟩ => ?_
      have hz := hl z
      have hcz := cover_pos hc h2
      rw [cover_cons, if_pos h1] at hz
      omega
    · have hx := hl x
      rw [cover_cons] at hx
      omega

theorem disjoint (hi : HeapInv base h F A) :
    (F ++ A).Pairwise (fun b c => b.stop ≤ c.addr ∨ c.stop ≤ b.addr) := by
  refine pairwise_apart (fun b hb => hi.pos hb) fun x => ?_
  rw [cover_append, hi.tile]
  exact hi.once x

theorem apart (hi : HeapInv base h F A) (hb : b ∈ F) (hc : c ∈ A) :
    b.stop ≤ c.addr ∨ c.stop ≤ b.addr :=
  (List.pairwise_append.mp hi.disjoint).2.2 b hb c hc

theorem used_not_node (hi : HeapInv base h F A) (hc : c ∈ A) : c.addr ∉ base :: F.map Block.addr := by
  intro hm
  rcases List.mem_cons.mp hm with he | hm
  · have hw := hi.within (List.mem_append_right F hc)
    unfold headerSize at hw
    omega
  · obtain ⟨b, hb, he⟩ := List.mem_map.mp hm
    have hp := hi.list.pos b hb
    have hp' := (hi.used c hc).2
    have ha := hi.apart hb hc
    unfold Block.stop headerSize at ha
    omega

theorem node_pos (hi : HeapInv base h F A) {p : Nat} (hp : p ∈ base :: F.map Block.addr) : p ≠ 0 := by
  have hb := hi.low.1
  rcases List.mem_cons.mp hp with rfl | hm
  · omega
  · obtain ⟨b, hb', rfl⟩ := List.mem_map.mp hm
    have hl := hi.list.low b hb'
    omega

end HeapInv

theorem FreeList.exists_succ (hF : FreeList base h F) {q : Nat} (hq : q ∈ base :: F.map Block.addr)
    (hne : h.ptr q ≠ base) : ∃ pre y post, F = pre ++ y :: post ∧ q = before base pre ∧ h.ptr q = y.addr := by
  rcases List.mem_cons.mp hq with rfl | hm
  · cases F with
    | nil => exact absurd hF.ring.2.1 hne
    | cons y post => exact ⟨[], y, post, rfl, rfl, hF.ring.2.1⟩
  · obtain ⟨b, hb, rfl⟩ := List.mem_map.mp hm
    obtain ⟨pre, post, rfl⟩ := List.append_of_mem hb
    cases post with
    | nil =>
      have hl := hF.ring.last_next
      rw [List.map_append, List.map_singleton, last_append_cons] at hl
      exact absurd hl hne
    | cons y post =>
      have hF' : FreeList base h ((pre ++ [b]) ++ y :: post) := by
        rw [List.append_assoc]
        exact hF
      have hc := hF'.chain_post
      rw [before_concat] at hc
      exact ⟨pre ++ [b], y, post, by simp, (before_concat b).symm, hc.1⟩

namespace FreeList

theorem unlink (hF : FreeList base h (pre ++ y :: post)) :
    FreeList base (h.setPtr (before base pre) (h.ptr y.addr)) (pre ++ post) := by
  have hsub : (pre ++ post).Sublist (pre ++ y :: post) :=
    (List.Sublist.refl pre).append (List.sublist_cons_self y post)
  refine ⟨?_, fun b hb => ?_, ?_, hF.gap.sublist hsub, fun b hb => hF.low b (hsub.subset hb),
    fun b hb => hF.pos b (hsub.subset hb)⟩
  · have hring := hF.ring
    rw [List.map_append, List.map_cons] at hring
    rw [List.map_append]
    refine hring.remove ?_ fun x hx => ?_
    · rw [Heap.ptr_setPtr, if_pos (by rfl)]
    · change x ≠ before base pre at hx
      rw [Heap.ptr_setPtr, if_neg hx]
  · rw [Heap.size_setPtr]
    exact hF.size b (hsub.subset hb)
  · rw [Heap.size_setPtr]
    exact hF.bottom

theorem shrink {m : Nat} (hF : FreeList base h (pre ++ y :: post)) (hk : k.toNat < y.size)
    (hm : m = y.size - k.toNat) (k' : UInt32) :
    FreeList base ((h.setSize y.addr (h.size y.addr - k)).setSize (y.addr + headerSize * m) k')
      (pre ++ ⟨y.addr, m⟩ :: post) := by
  have hys := hF.size y (by simp)
  have hgap := hF.gap
  obtain ⟨hg1, hg2, hg3⟩ := List.pairwise_append.mp hgap
  obtain ⟨hgy, hg4⟩ := List.pairwise_cons.mp hg2
  have hsub : (h.size y.addr - k).toNat = m := by
    rw [UInt32.toNat_sub_of_le _ _ (by rw [UInt32.le_iff_toNat_le]; omega), hys, hm]
  have hin : ∀ {b}, b ∈ pre ++ ⟨y.addr, m⟩ :: post → b = ⟨y.addr, m⟩ ∨ b ∈ pre ++ post := by
    intro b hb
    simp only [List.mem_append, List.mem_cons] at hb ⊢
    tauto
  have hmem : ∀ {b}, b ∈ pre ++ post → b ∈ pre ++ y :: post := by
    intro b hb
    simp only [List.mem_append, List.mem_cons] at hb ⊢
    tauto
  have hnew : ∀ {b}, b ∈ pre ++ post → b.addr ≠ y.addr ∧ b.addr ≠ y.addr + headerSize * m := by
    intro b hb
    unfold headerSize
    rcases List.mem_append.mp hb with hb | hb
    · have hlt := hg3 b hb y (by simp)
      unfold Block.stop headerSize at hlt
      omega
    · have hlt := hgy b hb
      unfold Block.stop headerSize at hlt
      omega
  refine ⟨?_, fun b hb => ?_, ?_, ?_, fun b hb => ?_, fun b hb => ?_⟩
  · have hring := hF.ring
    rw [List.map_append, List.map_cons] at hring ⊢
    refine hring.congr fun x _ => ?_
    rw [Heap.ptr_setSize, Heap.ptr_setSize]
  · rw [Heap.size_setSize, Heap.size_setSize]
    rcases hin hb with rfl | hb
    · rw [if_neg (by unfold headerSize; dsimp only; omega), if_pos rfl]
      exact hsub
    · rw [if_neg (hnew hb).2, if_neg (hnew hb).1]
      exact hF.size b (hmem hb)
  · have hl := hF.low y (by simp)
    rw [Heap.size_setSize, Heap.size_setSize, if_neg (by unfold headerSize; omega), if_neg (by omega)]
    exact hF.bottom
  · refine List.pairwise_append.mpr ⟨hg1, List.pairwise_cons.mpr ⟨fun c hc => ?_, hg4⟩, ?_⟩
    · have hlt := hgy c hc
      unfold Block.stop headerSize at hlt ⊢
      dsimp only
      omega
    · intro b hb c hc
      rcases List.mem_cons.mp hc with rfl | hc
      · exact hg3 b hb y (by simp)
      · exact hg3 b hb c (by simp [hc])
  · rcases hin hb with rfl | hb
    · exact hF.low y (by simp)
    · exact hF.low b (hmem hb)
  · rcases hin hb with rfl | hb
    · dsimp only
      omega
    · exact hF.pos b (hmem hb)

end FreeList

namespace HeapInv

theorem move (hi : HeapInv base h F A) (hlist : FreeList base h' F')
    (hfreep : h'.freep ∈ base :: F'.map Block.addr) (hregions : h'.regions = h.regions)
    (htop : h'.top = h.top) (hb : (h'.size b.addr).toNat = b.size ∧ 0 < b.size)
    (hkeep : ∀ c ∈ A, h'.size c.addr = h.size c.addr)
    (hcover : ∀ x, cover F' x + cover [b] x = cover F x) (htotal : total F' + b.size = total F) :
    HeapInv base h' F' (b :: A) := by
  refine ⟨hlist, hfreep, fun c hc => ?_, fun x => ?_, ?_, ?_, ?_, ?_⟩
  · rcases List.mem_cons.mp hc with rfl | hc
    · exact hb
    · rw [hkeep c hc]
      exact hi.used c hc
  · have ht := hi.tile x
    have hx := hcover x
    rw [hregions, cover_cons]
    simp only [cover_cons, cover_nil] at hx
    omega
  · rw [hregions]
    exact hi.once
  · rw [hregions, htop]
    exact hi.region
  · rw [htop]
    exact hi.low
  · have hu := hi.units
    rw [hregions, total_cons]
    omega

theorem take (hi : HeapInv base h (pre ++ y :: post) A) (hk : 0 < k.toNat) (hle : k ≤ h.size y.addr) :
    ∃ h' ap F', Umalloc.take h k (before base pre) y.addr = (h', ap) ∧
      HeapInv base h' F' (⟨ap - headerSize, k.toNat⟩ :: A) ∧ h'.regions = h.regions ∧ headerSize ≤ ap ∧
      F'.length ≤ (pre ++ y :: post).length := by
  have hF := hi.list
  have hys := hF.size y (by simp)
  have hprev : before base pre ∈ base :: pre.map Block.addr := last_mem _ _
  unfold Umalloc.take
  by_cases heq : h.size y.addr = k
  · rw [if_pos heq]
    refine ⟨_, _, pre ++ post, rfl, ?_, rfl, by omega, by simp⟩
    rw [Nat.add_sub_cancel]
    have hsize : y.size = k.toNat := by rw [← hys, heq]
    have hy : (⟨y.addr, k.toNat⟩ : Block) = y := by rw [← hsize]
    rw [hy]
    refine hi.move (hF.unlink.setFreep _) ?_ rfl rfl ?_ (fun c _ => ?_) (fun x => ?_) ?_
    · rw [List.map_append, ← List.cons_append]
      exact List.mem_append_left _ hprev
    · exact ⟨(congrArg UInt32.toNat (Heap.size_setPtr ..)).trans hys, hF.pos y (by simp)⟩
    · exact Heap.size_setPtr ..
    · simp only [cover_append, cover_cons, cover_nil]
      omega
    · simp only [total_append, total_cons]
      omega
  · rw [if_neg heq]
    have hlt : k.toNat < y.size := by
      rw [UInt32.le_iff_toNat_le] at hle
      have hne : (h.size y.addr).toNat ≠ k.toNat := fun he => heq (UInt32.toNat_inj.mp he)
      omega
    have hsub : (h.size y.addr - k).toNat = y.size - k.toNat := by
      rw [UInt32.toNat_sub_of_le _ _ hle, hys]
    have hstop : (h.setSize y.addr (h.size y.addr - k)).stop y.addr =
        y.addr + headerSize * (y.size - k.toNat) := by
      rw [Heap.stop, Heap.size_setSize, if_pos rfl, hsub]
    dsimp only
    rw [hstop]
    refine ⟨_, _, pre ++ ⟨y.addr, y.size - k.toNat⟩ :: post, rfl, ?_, rfl, by omega, by simp⟩
    rw [Nat.add_sub_cancel]
    refine hi.move ((hF.shrink hlt rfl k).setFreep _) ?_ rfl rfl ?_ (fun c hc => ?_) (fun x => ?_) ?_
    · rw [List.map_append, ← List.cons_append]
      exact List.mem_append_left _ hprev
    · refine ⟨?_, hk⟩
      change (Heap.size (Heap.setSize _ _ k) _).toNat = _
      rw [Heap.size_setSize, if_pos rfl]
    · -- Other allocated blocks are outside `y`.
      have hp := (hi.used c hc).2
      have ha := hi.apart (b := y) (by simp) hc
      change Heap.size (Heap.setSize (Heap.setSize h _ _) _ k) c.addr = _
      unfold Block.stop headerSize at ha
      rw [Heap.size_setSize, Heap.size_setSize, if_neg (by unfold headerSize; omega), if_neg (by omega)]
    · have hj := covers_join (a := y.addr) (m := y.size - k.toNat) (n := k.toNat) x
      rw [Nat.sub_add_cancel (by omega)] at hj
      simp only [cover_append, cover_cons, cover_nil]
      change _ = _ + (_ + if (⟨y.addr, y.size⟩ : Block).Covers x then 1 else 0)
      omega
    · simp only [total_append, total_cons]
      omega

theorem added {bp n : Nat} (hi : HeapInv base h F A) (hr : ∀ x, cover [⟨bp, n⟩] x + cover h.regions x ≤ 1)
    (hbp : h.top ≤ bp) {h₁ : Heap} (hmem : ∀ a, a ≠ bp → h₁.mem a = h.mem a)
    (hreg : h₁.regions = ⟨bp, n⟩ :: h.regions) (htop : h₁.top = bp + headerSize * n)
    (ha : Added base h₁ F bp n h' F') (hf : h'.freep ∈ base :: F'.map Block.addr) :
    HeapInv base h' F' A := by
  refine ⟨ha.list, hf, fun c hc => ?_, fun x => ?_, fun x => ?_, fun r hr' => ?_, ?_, ?_⟩
  · have hw := hi.within (List.mem_append_right F hc)
    have hp := (hi.used c hc).2
    have hne : c.addr ≠ bp := by
      unfold Block.stop headerSize at hw
      omega
    rw [Heap.size, ha.frame _ hne (hi.used_not_node hc), hmem _ hne]
    exact hi.used c hc
  · rw [ha.cover, ha.regions, hreg, cover_cons]
    have ht := hi.tile x
    simp only [cover_cons, cover_nil]
    omega
  · rw [ha.regions, hreg, cover_cons]
    have h1 := hr x
    simp only [cover_cons, cover_nil] at h1
    omega
  · rw [ha.regions, hreg] at hr'
    rw [ha.top, htop]
    have hl := hi.low.2
    rcases List.mem_cons.mp hr' with rfl | hr'
    · exact ⟨by dsimp only; omega, Nat.le_refl _⟩
    · have hreg' := hi.region r hr'
      omega
  · rw [ha.top, htop]
    have hl := hi.low
    omega
  · rw [ha.total, ha.regions, hreg, total_cons]
    have hu := hi.units
    dsimp only
    omega

def ask (k : UInt32) : UInt32 := if k < 4096 then 4096 else k

theorem le_ask (k : UInt32) : k.toNat ≤ (ask k).toNat ∧ 0 < (ask k).toNat := by
  unfold ask
  split
  · next hlt =>
    exact ⟨Nat.le_of_lt hlt, by decide⟩
  · next hge =>
    rw [UInt32.lt_iff_toNat_lt, Nat.not_lt] at hge
    exact ⟨Nat.le_refl _, Nat.lt_of_lt_of_le (by decide) hge⟩

theorem free_above {bp n : Nat} (hi : HeapInv base h F A) (hge : h.top ≤ bp) {h₁ : Heap}
    (hmem : ∀ a, a ≠ bp → h₁.mem a = h.mem a) (hsize : (h₁.size bp).toNat = n) (hfreep : h₁.freep = h.freep)
    (hn : 0 < n) (hjoin : ∀ b ∈ F, b.size + n < 2 ^ 32) (hfuel : F.length < fuel) :
    ∃ h' F', free fuel h₁ (bp + headerSize) = .ok h' ∧ Added base h₁ F bp n h' F' ∧
      h'.freep ∈ base :: F'.map Block.addr := by
  have hlow := hi.low
  have hbelow : ∀ b ∈ F, b.stop ≤ bp := fun b hb =>
    Nat.le_trans (hi.within (List.mem_append_left A hb)).2 hge
  have hnode : ∀ x ∈ base :: F.map Block.addr, x ≠ bp := by
    intro x hx
    rcases List.mem_cons.mp hx with rfl | hx
    · unfold headerSize at hlow
      omega
    · obtain ⟨b, hb, rfl⟩ := List.mem_map.mp hx
      have hw := hbelow b hb
      have hp := hi.list.pos b hb
      unfold Block.stop headerSize at hw
      omega
  have hF₁ : FreeList base h₁ F := by
    refine ⟨hi.list.ring.congr (fun x hx => ?_), fun b hb => ?_, ?_, hi.list.gap, hi.list.low, hi.list.pos⟩
    · rw [Heap.ptr, hmem x (hnode x hx), Heap.ptr]
    · rw [Heap.size, hmem _ (hnode _ (List.mem_cons_of_mem _ (List.mem_map_of_mem hb)))]
      exact hi.list.size b hb
    · rw [Heap.size, hmem _ (hnode _ List.mem_cons_self)]
      exact hi.list.bottom
  refine hF₁.free (hfreep ▸ hi.freep) (by unfold headerSize at hlow; omega) hn hsize
    (fun b hb => .inl (hbelow b hb)) (fun pre post hF hpost => ?_) hfuel
  -- nothing is above `bp`
  have hnone : ∀ c ∈ post, False := by
    intro c hc
    have hb := hbelow c (hF ▸ List.mem_append_right pre hc)
    have hp := hpost c hc
    unfold Block.stop headerSize at hb
    unfold headerSize at hp
    omega
  exact ⟨fun c hc => (hnone c hc).elim, fun y hy => hjoin y (hF ▸ List.mem_append_left post hy),
    fun _ _ c hc => (hnone c hc).elim⟩

theorem morecore {answer : Option Nat} (hi : HeapInv base h F A)
    (hint : (ask k).toNat * headerSize < 2 ^ 31)
    (hsum : answer = none ∨ ∀ b ∈ F, b.size + (ask k).toNat < 2 ^ 32) (hfuel : F.length < fuel) :
    ∃ h' p, Umalloc.morecore fuel answer h k = .ok (h', p) ∧ (p = 0 ∧ h' = h ∨
      p = h'.freep ∧ answer ≠ none ∧ total h'.regions = total h.regions + (ask k).toNat ∧ h.top ≤ h'.top ∧
        ∃ F', HeapInv base h' F' A ∧ F'.length ≤ F.length + 1 ∧ ∃ b ∈ F', k.toNat ≤ b.size) := by
  obtain ⟨hle, hpos⟩ := le_ask k
  change ∃ h' p, ((if (ask k).toNat * headerSize ≥ 2 ^ 31 then _ else _) >>= _) = _ ∧ _
  rw [if_neg (by omega)]
  cases answer with
  | none => exact ⟨h, 0, rfl, .inl ⟨rfl, rfl⟩⟩
  | some gap =>
    replace hsum := hsum.resolve_left (Option.some_ne_none gap)
    have hdiv : (ask k).toNat * headerSize / headerSize = (ask k).toNat :=
      Nat.mul_div_cancel _ (by decide)
    generalize hbp : h.top + gap = bp
    have hge : h.top ≤ bp := by omega
    let h₁ : Heap := Heap.setSize { h with
      regions := ⟨bp, (ask k).toNat⟩ :: h.regions
      top := bp + (ask k).toNat * headerSize } bp (ask k)
    have hmem : ∀ a, a ≠ bp → h₁.mem a = h.mem a := fun a ha => Function.update_of_ne ha ..
    have hsize : (h₁.size bp).toNat = (ask k).toNat := by
      rw [Heap.size_setSize, if_pos rfl]
    obtain ⟨h', F', hrun, hadd, hf⟩ := hi.free_above hge hmem hsize rfl hpos hsum hfuel
    have hregions : h'.regions = ⟨bp, (ask k).toNat⟩ :: h.regions := hadd.regions
    refine ⟨h', h'.freep, ?_, .inr ⟨rfl, Option.some_ne_none gap, ?_, ?_, F', ?_, hadd.length, ?_⟩⟩
    · dsimp only
      rw [hbp, show (if k < 4096 then (4096 : UInt32) else k) = ask k from rfl, hdiv]
      change (free fuel h₁ (bp + headerSize) >>= _) = _
      rw [hrun]
      rfl
    · rw [hregions, total_cons]
      exact Nat.add_comm ..
    · rw [hadd.top]
      exact Nat.le_trans hge (Nat.le_add_right ..)
    · refine hi.added (fun x => ?_) hge hmem rfl (Nat.mul_comm .. ▸ rfl) hadd hf
      -- The new region is above all earlier ones.
      have ho := hi.once x
      by_cases hx : (⟨bp, (ask k).toNat⟩ : Block).Covers x
      · have h0 : cover h.regions x = 0 := by
          by_contra hne
          obtain ⟨r, hr, hc⟩ := exists_of_cover hne
          have hreg := hi.region r hr
          unfold Block.Covers at hx hc
          dsimp only at hx
          omega
        simp [hx, h0]
      · simp [hx, ho]
    · obtain ⟨b, hb, hbn⟩ := hadd.fits
      exact ⟨b, hb, by omega⟩

end HeapInv

section Loop

variable {more : Heap → Except Fault (Heap × Nat)}

theorem mallocLoop_skip {f q : Nat} {u l v : List Nat} (hc : Chain h.ptr f l) (hl : f :: l = u ++ q :: v)
    (hu : ∀ x ∈ u, h.size (h.ptr x) < k ∧ h.ptr x ≠ h.freep) :
    mallocLoopWith more k (u.length + fuel) h f (h.ptr f) = mallocLoopWith more k fuel h q (h.ptr q) := by
  induction u generalizing f l with
  | nil =>
    rw [List.nil_append, List.cons.injEq] at hl
    rw [List.length_nil, Nat.zero_add, hl.1]
  | cons x u ih =>
    rw [List.cons_append, List.cons.injEq] at hl
    obtain ⟨rfl, rfl⟩ := hl
    obtain ⟨hsmall, hne⟩ := hu f List.mem_cons_self
    have hstep : mallocLoopWith more k (u.length + 1 + fuel) h f (h.ptr f) =
        mallocLoopWith more k (u.length + fuel) h (h.ptr f) (h.ptr (h.ptr f)) := by
      rw [Nat.add_right_comm, mallocLoopWith, if_neg (UInt32.not_le.mpr hsmall), if_neg hne]
    rw [List.length_cons, hstep]
    have hu' : ∀ y ∈ u, h.size (h.ptr y) < k ∧ h.ptr y ≠ h.freep :=
      fun y hy => hu y (List.mem_cons_of_mem _ hy)
    cases u with
    | nil =>
      obtain ⟨rfl, hc⟩ := hc
      exact ih hc rfl hu'
    | cons y u =>
      obtain ⟨rfl, hc⟩ := hc
      exact ih hc rfl hu'

namespace FreeList

theorem exists_circle (hF : FreeList base h F) (hf : h.freep ∈ base :: F.map Block.addr) :
    ∃ l, Ring h.ptr h.freep l ∧ l.length = F.length ∧ ∀ x, x ∈ h.freep :: l ↔ x ∈ base :: F.map Block.addr := by
  obtain ⟨l, hring, hperm⟩ := hF.ring.exists_rotate hf
  have hlen := hperm.length_eq
  rw [List.length_cons, List.length_cons, List.length_map] at hlen
  exact ⟨l, hring, by omega, fun x => hperm.mem_iff⟩

variable (more) in
theorem mallocLoop_fits (hF : FreeList base h F) (hf : h.freep ∈ base :: F.map Block.addr)
    (hk : 0 < k.toNat) (hfit : ∃ b ∈ F, k.toNat ≤ b.size) (hfuel : F.length < fuel) :
    ∃ pre y post, F = pre ++ y :: post ∧ k ≤ h.size y.addr ∧
      mallocLoopWith more k fuel h h.freep (h.ptr h.freep) = .ok (Umalloc.take h k (before base pre) y.addr) := by
  obtain ⟨l, hring, hlen, hnodes⟩ := hF.exists_circle hf
  obtain ⟨b, hb, hkb⟩ := hfit
  have hbig : ∃ x ∈ h.freep :: l, k ≤ h.size (h.ptr x) := by
    obtain ⟨x, hx, hxb⟩ := hring.exists_prev
      ((hnodes b.addr).mpr (List.mem_cons_of_mem _ (List.mem_map_of_mem hb)))
    refine ⟨x, hx, ?_⟩
    rwa [hxb, UInt32.le_iff_toNat_le, hF.size b hb]
  obtain ⟨q, hq⟩ := Option.isSome_iff_exists.mp
    (List.find?_isSome (p := fun x => decide (k ≤ h.size (h.ptr x))).mpr
      (by simpa only [decide_eq_true_eq] using hbig))
  obtain ⟨hqk, u, v, hl, hu⟩ := List.find?_eq_some_iff_append.mp hq
  have hkq : k ≤ h.size (h.ptr q) := of_decide_eq_true hqk
  have hlu : u.length ≤ F.length := by
    have hle := congrArg List.length hl
    rw [List.length_cons, List.length_append, List.length_cons] at hle
    omega
  obtain ⟨fuel', rfl⟩ : ∃ m, fuel = u.length + (m + 1) := ⟨fuel - u.length - 1, by omega⟩
  have hsmall : ∀ x ∈ u, h.size (h.ptr x) < k ∧ h.ptr x ≠ h.freep := by
    intro x hx
    refine ⟨UInt32.not_le.mp (by simpa using hu x hx), hring.next_ne ?_⟩
    rw [hl, List.dropLast_append_cons]
    exact List.mem_append_left _ hx
  have hqn : q ∈ base :: F.map Block.addr := by
    rw [← hnodes, hl]
    simp
  have hne : h.ptr q ≠ base := by
    intro he
    rw [he, hF.bottom, UInt32.le_iff_toNat_le] at hkq
    exact absurd hkq (Nat.not_le.mpr hk)
  obtain ⟨pre, y, post, rfl, rfl, hy⟩ := hF.exists_succ hqn hne
  rw [hy] at hkq
  refine ⟨pre, y, post, rfl, hkq, ?_⟩
  rw [mallocLoop_skip (chain_append.mp hring.2).1 hl hsmall, mallocLoopWith, hy, if_pos hkq]

theorem mallocLoop_more (hF : FreeList base h F) (hf : h.freep ∈ base :: F.map Block.addr)
    (hk : 0 < k.toNat) (hfit : ¬ ∃ b ∈ F, k.toNat ≤ b.size) :
    mallocLoopWith more k (F.length + (fuel + 1)) h h.freep (h.ptr h.freep) = more h >>= fun r =>
      if r.2 = 0 then .ok (r.1, 0) else mallocLoopWith more k fuel r.1 r.2 (r.1.ptr r.2) := by
  obtain ⟨l, hring, hlen, hnodes⟩ := hF.exists_circle hf
  have hsmall : ∀ x ∈ base :: F.map Block.addr, h.size x < k := by
    intro x hx
    rw [UInt32.lt_iff_toNat_lt]
    rcases List.mem_cons.mp hx with rfl | hx
    · rw [hF.bottom]
      exact hk
    · obtain ⟨b, hb, rfl⟩ := List.mem_map.mp hx
      rw [hF.size b hb]
      exact Nat.lt_of_not_le fun hle => hfit ⟨b, hb, hle⟩
  have hc : Chain h.ptr h.freep l := (chain_append.mp hring.2).1
  have hskip : ∀ x ∈ (h.freep :: l).dropLast, h.size (h.ptr x) < k ∧ h.ptr x ≠ h.freep := by
    intro x hx
    have hany : (h.freep :: l).Pairwise (fun _ _ => True) := List.pairwise_of_forall fun _ _ => trivial
    exact ⟨hsmall _ ((hnodes _).mp (List.mem_cons_of_mem _ (hc.rel_next hany hx).2)), hring.next_ne hx⟩
  have hdrop : (h.freep :: l).dropLast.length = F.length := by
    rw [List.length_dropLast, List.length_cons, hlen, Nat.add_sub_cancel]
  rw [← hdrop, mallocLoop_skip hc (dropLast_append_last _ _).symm hskip, mallocLoopWith, hring.last_next,
    if_neg (UInt32.not_le.mpr (hsmall _ hf)), if_pos rfl]

end FreeList

end Loop

def Found (base : Nat) (A : List Block) (k : UInt32) (n : Nat) (h' : Heap) (ap : Nat) : Prop :=
  total h'.regions < 2 ^ 32 ∧ ∃ F', HeapInv base h' F' (⟨ap - headerSize, k.toNat⟩ :: A) ∧
    headerSize ≤ ap ∧ F'.length ≤ n

theorem HeapInv.mallocLoop_fits {more : Heap → Except Fault (Heap × Nat)} (hi : HeapInv base h F A)
    (hk : 0 < k.toNat) (hfit : ∃ b ∈ F, k.toNat ≤ b.size) (hlt : total h.regions < 2 ^ 32)
    (hfuel : F.length < fuel) : ∃ h' ap, mallocLoopWith more k fuel h h.freep (h.ptr h.freep) = .ok (h', ap) ∧
      Found base A k F.length h' ap := by
  obtain ⟨pre, y, post, rfl, hkq, hrun⟩ := hi.list.mallocLoop_fits more hi.freep hk hfit hfuel
  obtain ⟨h', ap, F', htake, hi', hreg, hap, hF'⟩ := hi.take hk hkq
  refine ⟨h', ap, ?_, hreg ▸ hlt, F', hi', hap, hF'⟩
  rw [hrun, htake]

theorem HeapInv.mallocLoop {inner : Nat} {answer : Option Nat} (hi : HeapInv base h F A)
    (hk : 0 < k.toNat) (hint : (HeapInv.ask k).toNat * headerSize < 2 ^ 31)
    (hsum : answer = none ∨ total h.regions + (HeapInv.ask k).toNat < 2 ^ 32)
    (hlt : total h.regions < 2 ^ 32) (hinner : F.length < inner) (hfuel : 2 * F.length + 2 < fuel) :
    ∃ h' ap, Umalloc.mallocLoop inner answer k fuel h h.freep (h.ptr h.freep) = .ok (h', ap) ∧
      (ap = 0 ∧ h' = h ∨ Found base A k (F.length + 1) h' ap) := by
  unfold Umalloc.mallocLoop
  by_cases hfit : ∃ b ∈ F, k.toNat ≤ b.size
  · have hF : F.length < fuel := by omega
    obtain ⟨h', ap, hrun, hlt', F', hi', hap, hF'⟩ := hi.mallocLoop_fits hk hfit hlt hF
    exact ⟨h', ap, hrun, .inr ⟨hlt', F', hi', hap, by omega⟩⟩
  · obtain ⟨fuel', rfl⟩ : ∃ m, fuel = F.length + (m + 1) := ⟨fuel - F.length - 1, by omega⟩
    rw [hi.list.mallocLoop_more hi.freep hk hfit]
    have hunits := hi.units
    have hjoin : answer = none ∨ ∀ b ∈ F, b.size + (HeapInv.ask k).toNat < 2 ^ 32 := by
      refine hsum.imp_right fun hsum b hb => ?_
      have hle := total_le hb
      omega
    obtain ⟨h₁, p, hmore, hp⟩ := hi.morecore hint hjoin hinner
    rw [hmore]
    change ∃ h' ap, (if p = 0 then _ else _) = _ ∧ _
    rcases hp with ⟨rfl, rfl⟩ | ⟨rfl, hans, htot, -, F₁, hi₁, hF₁, hfit₁⟩
    · exact ⟨h₁, 0, if_pos rfl, .inl ⟨rfl, rfl⟩⟩
    · rw [if_neg (hi₁.node_pos hi₁.freep)]
      have hlt₁ : total h₁.regions < 2 ^ 32 := htot ▸ hsum.resolve_left hans
      have hF : F₁.length < fuel' := by omega
      obtain ⟨h', ap, hrun, hlt', F', hi', hap, hF'⟩ := hi₁.mallocLoop_fits hk hfit₁ hlt₁ hF
      exact ⟨h', ap, hrun, .inr ⟨hlt', F', hi', hap, by omega⟩⟩

theorem units_toNat (n : UInt32) : (units n).toNat = (n.toNat + headerSize - 1) / headerSize + 1 := by
  have hn := n.toNat_lt
  rw [units, UInt32.toNat_ofNat_of_lt']
  unfold headerSize
  change _ < 2 ^ 32
  omega

namespace HeapInv

theorem empty (hA : A = []) (hbase : 0 < base) (htop : base + headerSize ≤ h.top) (hreg : h.regions = []) :
    HeapInv base { (h.setPtr base base).setSize base 0 with freep := base } [] A := by
  subst hA
  have hptr : ((h.setPtr base base).setSize base 0).ptr base = base := by simp
  have hsize : ((h.setPtr base base).setSize base 0).size base = 0 := by simp
  have hr : ((h.setPtr base base).setSize base 0).regions = [] := hreg
  refine ⟨⟨⟨by simp, hptr, trivial⟩, by simp, hsize, List.Pairwise.nil, by simp, by simp⟩, by simp,
    by simp, fun x => ?_, fun x => ?_, fun r hr' => ?_, ⟨hbase, htop⟩, ?_⟩
  · rw [hr]
    rfl
  · rw [hr]
    exact Nat.zero_le 1
  · rw [hr] at hr'
    cases hr'
  · rw [hr]
    rfl

theorem congr (hi : HeapInv base h F A) (hmem : ∀ x ∈ base :: F.map Block.addr ++ A.map Block.addr,
    h'.mem x = h.mem x) (hfreep : h'.freep = h.freep) (hreg : h'.regions = h.regions)
    (htop : h'.top = h.top) : HeapInv base h' F A := by
  have hnode : ∀ x ∈ base :: F.map Block.addr, h'.mem x = h.mem x :=
    fun x hx => hmem x (List.mem_append_left _ hx)
  refine ⟨⟨hi.list.ring.congr (fun x hx => ?_), fun b hb => ?_, ?_, hi.list.gap, hi.list.low, hi.list.pos⟩,
    hfreep ▸ hi.freep, fun b hb => ?_, hreg ▸ hi.tile, hreg ▸ hi.once, ?_, htop ▸ hi.low, hreg ▸ hi.units⟩
  · rw [Heap.ptr, hnode x hx, Heap.ptr]
  · rw [Heap.size, hnode _ (List.mem_cons_of_mem _ (List.mem_map_of_mem hb))]
    exact hi.list.size b hb
  · rw [Heap.size, hnode _ List.mem_cons_self]
    exact hi.list.bottom
  · rw [Heap.size, hmem _ (List.mem_append_right _ (List.mem_map_of_mem hb))]
    exact hi.used b hb
  · rw [hreg, htop]
    exact hi.region

theorem header_outside (hi : HeapInv base h F A) (hc : c ∈ A)
    (hx : x ∈ base :: F.map Block.addr ++ A.map Block.addr) : x ≤ c.addr ∨ c.stop ≤ x := by
  have hpos {b : Block} (hb : b ∈ F ++ A) : b.addr < b.stop := by
    have hp := hi.pos hb
    unfold Block.stop headerSize
    omega
  rw [List.cons_append, List.mem_cons, ← List.map_append] at hx
  rcases hx with rfl | hx
  · have hw := hi.within (List.mem_append_right F hc)
    omega
  · obtain ⟨b, hb, rfl⟩ := List.mem_map.mp hx
    by_cases hbc : b = c
    · exact .inl (Nat.le_of_eq (congrArg Block.addr hbc))
    · have : Std.Symm (fun b c : Block => b.stop ≤ c.addr ∨ c.stop ≤ b.addr) := ⟨fun _ _ => Or.symm⟩
      have hap := hi.disjoint.forall hb (List.mem_append_right F hc) hbc
      have hlt := hpos hb
      omega

theorem release {A₁ A₂ : List Block} (hi : HeapInv base h F (A₁ ++ c :: A₂))
    (hlt : total h.regions < 2 ^ 32) (hfuel : F.length < fuel) :
    ∃ h' F', Umalloc.free fuel h (c.addr + headerSize) = .ok h' ∧ HeapInv base h' F' (A₁ ++ A₂) ∧
      h'.regions = h.regions ∧ F'.length ≤ F.length + 1 := by
  have hc : c ∈ A₁ ++ c :: A₂ := by simp
  have hw := hi.within (List.mem_append_right F hc)
  obtain ⟨hsize, hpos⟩ := hi.used c hc
  have hunits := hi.units
  rw [total_append, total_cons] at hunits
  obtain ⟨h', F', hrun, hadd, hf⟩ := hi.list.free hi.freep (by unfold headerSize at hw; omega) hpos hsize
    (fun b hb => hi.apart hb hc) (fun pre post hF _ => joinable_of_total (by rw [← hF]; omega)) hfuel
  refine ⟨h', F', hrun, ⟨hadd.list, hf, fun d hd => ?_, fun x => ?_, hadd.regions ▸ hi.once, ?_,
    hadd.top ▸ hi.low, ?_⟩, hadd.regions, hadd.length⟩
  · have hd' : d ∈ A₁ ++ c :: A₂ := by
      simp only [List.mem_append, List.mem_cons] at hd ⊢
      tauto
    -- `d` and `c` stand at different places of the list, so they do not overlap.
    have hne : d.addr ≠ c.addr := by
      have hall := (List.pairwise_append.mp hi.disjoint).2.1
      have hperm : (A₁ ++ c :: A₂).Perm (c :: (A₁ ++ A₂)) := List.perm_middle
      have hcd := (List.pairwise_cons.mp (hperm.pairwise hall Or.symm)).1 d hd
      have hdpos := (hi.used d hd').2
      unfold Block.stop headerSize at hcd
      omega
    rw [Heap.size, hadd.frame _ hne (hi.used_not_node hd')]
    exact hi.used d hd'
  · have ht := hi.tile x
    rw [hadd.cover, hadd.regions]
    simp only [cover_append, cover_cons, cover_nil] at ht ⊢
    have hcc : (⟨c.addr, c.size⟩ : Block) = c := rfl
    rw [hcc]
    omega
  · rw [hadd.regions, hadd.top]
    exact hi.region
  · rw [hadd.total, hadd.regions, total_append]
    omega

end HeapInv

end Xv6.Umalloc
