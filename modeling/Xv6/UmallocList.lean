import Mathlib.Data.List.Count
import Xv6.Umalloc

/-! The free list of the user allocator: what `free` does to it. -/

namespace Xv6.Umalloc

open Function NextList

variable {base bp n fuel f : Nat} {h : Heap} {F pre post : List Block} {b c : Block}

def Block.Covers (b : Block) (x : Nat) : Prop := b.addr ≤ x ∧ x < b.stop

instance (b : Block) (x : Nat) : Decidable (b.Covers x) := inferInstanceAs (Decidable (_ ∧ _))

def cover (l : List Block) (x : Nat) : Nat := l.countP fun b => decide (b.Covers x)

def total (l : List Block) : Nat := (l.map Block.size).sum

@[simp] theorem cover_nil (x : Nat) : cover [] x = 0 := rfl

@[simp] theorem cover_cons (b : Block) (l : List Block) (x : Nat) :
    cover (b :: l) x = cover l x + if b.Covers x then 1 else 0 := by
  simp [cover, List.countP_cons]

@[simp] theorem cover_append (l r : List Block) (x : Nat) : cover (l ++ r) x = cover l x + cover r x :=
  List.countP_append

@[simp] theorem total_nil : total [] = 0 := rfl

@[simp] theorem total_cons (b : Block) (l : List Block) : total (b :: l) = b.size + total l := by
  simp [total]

@[simp] theorem total_append (l r : List Block) : total (l ++ r) = total l + total r := by
  simp [total]

theorem total_le (hb : b ∈ F) : b.size ≤ total F := by
  induction F with
  | nil => cases hb
  | cons c l ih =>
    rw [total_cons]
    rcases List.mem_cons.mp hb with rfl | hb
    · omega
    · have := ih hb
      omega

theorem covers_join {a m : Nat} (x : Nat) :
    ((if (⟨a, m⟩ : Block).Covers x then 1 else 0) +
      if (⟨a + headerSize * m, n⟩ : Block).Covers x then 1 else 0) =
      if (⟨a, m + n⟩ : Block).Covers x then 1 else 0 := by
  simp only [Block.Covers, Block.stop, headerSize]
  grind

namespace Heap

@[simp] theorem ptr_setPtr (h : Heap) (p q x : Nat) :
    (h.setPtr p q).ptr x = if x = p then q else h.ptr x := by
  simp only [ptr, setPtr, update_apply]
  split <;> rfl

@[simp] theorem size_setPtr (h : Heap) (p q x : Nat) : (h.setPtr p q).size x = h.size x := by
  simp only [size, setPtr, update_apply]
  split
  · next he => rw [he]
  · rfl

@[simp] theorem ptr_setSize (h : Heap) (p x : Nat) (n : UInt32) : (h.setSize p n).ptr x = h.ptr x := by
  simp only [ptr, setSize, update_apply]
  split
  · next he => rw [he]
  · rfl

@[simp] theorem size_setSize (h : Heap) (p x : Nat) (n : UInt32) :
    (h.setSize p n).size x = if x = p then n else h.size x := by
  simp only [size, setSize, update_apply]
  split <;> rfl

theorem mem_setPtr {p q x : Nat} (hx : x ≠ p) : (h.setPtr p q).mem x = h.mem x :=
  update_of_ne hx ..

theorem mem_setSize {p x : Nat} {n : UInt32} (hx : x ≠ p) : (h.setSize p n).mem x = h.mem x :=
  update_of_ne hx ..

end Heap

theorem toNat_add_lt {a b : UInt32} (h : a.toNat + b.toNat < 2 ^ 32) : (a + b).toNat = a.toNat + b.toNat := by
  rw [UInt32.toNat_add, Nat.mod_eq_of_lt h]

structure FreeList (base : Nat) (h : Heap) (F : List Block) : Prop where
  ring : Ring h.ptr base (F.map Block.addr)
  size : ∀ b ∈ F, (h.size b.addr).toNat = b.size
  bottom : h.size base = 0
  gap : F.Pairwise fun b c => b.stop < c.addr
  low : ∀ b ∈ F, base < b.addr
  pos : ∀ b ∈ F, 0 < b.size

namespace FreeList

theorem sorted (hF : FreeList base h F) : (base :: F.map Block.addr).Pairwise (· < ·) := by
  rw [List.pairwise_cons, List.pairwise_map]
  refine ⟨fun a ha => ?_, hF.gap.imp (fun {b c} hb => ?_)⟩
  · obtain ⟨b, hb, rfl⟩ := List.mem_map.mp ha
    exact hF.low b hb
  · unfold Block.stop at hb
    omega

end FreeList

theorem exists_split (hgap : F.Pairwise (fun b c => b.stop < c.addr))
    (hd : ∀ b ∈ F, b.stop ≤ bp ∨ bp + headerSize * n ≤ b.addr) :
    ∃ pre post, F = pre ++ post ∧ (∀ b ∈ pre, b.stop ≤ bp) ∧
      ∀ b ∈ post, bp + headerSize * n ≤ b.addr := by
  induction F with
  | nil => exact ⟨[], [], rfl, by simp, by simp⟩
  | cons b F ih =>
    obtain ⟨hb, hgap⟩ := List.pairwise_cons.mp hgap
    rcases hd b List.mem_cons_self with hlow | hhigh
    · obtain ⟨pre, post, rfl, hpre, hpost⟩ := ih hgap fun c hc => hd c (List.mem_cons_of_mem _ hc)
      refine ⟨b :: pre, post, rfl, fun c hc => ?_, hpost⟩
      rcases List.mem_cons.mp hc with rfl | hc
      · exact hlow
      · exact hpre c hc
    · refine ⟨[], b :: F, rfl, by simp, fun c hc => ?_⟩
      rcases List.mem_cons.mp hc with rfl | hc
      · exact hhigh
      · have hlt := hb c hc
        unfold Block.stop at hlt
        omega

def before (base : Nat) (pre : List Block) : Nat := last base (pre.map Block.addr)

namespace FreeList

variable (hF : FreeList base h (pre ++ post)) (hpre : ∀ b ∈ pre, b.stop ≤ bp)
  (hpost : ∀ b ∈ post, bp + headerSize * n ≤ b.addr) (hbp : base < bp) (hn : 0 < n)

include hF hpre hbp in
theorem before_lt : before base pre < bp := by
  unfold before
  rcases List.mem_cons.mp (last_mem base (pre.map Block.addr)) with he | hm
  · rwa [he]
  · obtain ⟨b, hb, he⟩ := List.mem_map.mp hm
    have hstop := hpre b hb
    have hpos := hF.pos b (List.mem_append_left _ hb)
    unfold Block.stop headerSize at hstop
    omega

include hF in
theorem chain_post : Chain h.ptr (before base pre) (post.map Block.addr ++ [base]) := by
  have hc := hF.ring.2
  rw [List.map_append, List.append_assoc, chain_append] at hc
  exact hc.2

include hF hpre hpost hbp hn in
theorem atGap_before : atGap h bp (before base pre) = true := by
  have hlt := hF.before_lt hpre hbp
  have hc := hF.chain_post
  unfold atGap
  cases post with
  | nil =>
    have hnext : h.ptr (before base pre) = base := hc.1
    have hge : base ≤ before base pre := by
      rcases List.mem_cons.mp (last_mem base (pre.map Block.addr)) with he | hm
      · exact Nat.le_of_eq he.symm
      · have hs := (List.pairwise_cons.mp hF.sorted).1 _ (by
          rw [List.map_append]
          exact List.mem_append_left _ hm)
        exact Nat.le_of_lt hs
    simp [hnext, hlt, hge]
  | cons c post =>
    have hnext : h.ptr (before base pre) = c.addr := hc.1
    have hhigh := hpost c List.mem_cons_self
    have hgt : bp < c.addr := by
      unfold headerSize at hhigh
      omega
    simp [hnext, hlt, hgt]

include hF hpre hpost hbp hn in
theorem not_atGap {x : Nat} (hx : x ∈ base :: (pre ++ post).map Block.addr)
    (hne : x ≠ before base pre) : atGap h bp x = false := by
  rw [List.map_append, ← List.cons_append] at hx
  rcases List.mem_append.mp hx with hx | hx
  · -- A node below `bp` that is not the last one leads to another such node.
    rw [← dropLast_append_last base (pre.map Block.addr)] at hx
    rcases List.mem_append.mp hx with hx | hx
    · have hs : (base :: pre.map Block.addr).Pairwise (· < ·) := by
        refine hF.sorted.sublist ?_
        rw [List.map_append]
        exact (List.sublist_append_left _ _).cons_cons base
      have hc := hF.ring.2
      rw [List.map_append, List.append_assoc, chain_append] at hc
      obtain ⟨hlt, hmem⟩ := hc.1.rel_next hs hx
      obtain ⟨b, hb, he⟩ := List.mem_map.mp hmem
      have hstop := hpre b hb
      unfold Block.stop at hstop
      unfold atGap
      simp only [Bool.or_eq_false_iff, Bool.and_eq_false_iff, decide_eq_false_iff_not]
      omega
    · exact absurd (List.mem_singleton.mp hx) hne
  · obtain ⟨b, hb, rfl⟩ := List.mem_map.mp hx
    have hhigh := hpost b hb
    have hgt : bp < b.addr := by
      unfold headerSize at hhigh
      omega
    have hs := hF.sorted
    -- Above `bp` only the last node leads down, and then to `base`.
    have hxin : b.addr ∈ base :: (pre ++ post).map Block.addr := by
      rw [List.map_append]
      exact List.mem_cons_of_mem _ (List.mem_append_right _ hx)
    rw [← dropLast_append_last base ((pre ++ post).map Block.addr)] at hxin
    unfold atGap
    simp only [Bool.or_eq_false_iff, Bool.and_eq_false_iff, decide_eq_false_iff_not]
    rcases List.mem_append.mp hxin with hm | hm
    · have hc := (chain_append.mp hF.ring.2).1
      have hlt := (hc.rel_next hs hm).1
      omega
    · rw [List.mem_singleton.mp hm] at hgt ⊢
      rw [hF.ring.last_next]
      omega

end FreeList

theorem search_skip {u : List Nat} {q : Nat} {l v : List Nat} (hc : Chain h.ptr f l)
    (hl : f :: l = u ++ q :: v) (hu : ∀ x ∈ u, atGap h bp x = false) :
    search h bp (u.length + fuel) f = search h bp fuel q := by
  induction u generalizing f l with
  | nil =>
    rw [List.nil_append, List.cons.injEq] at hl
    rw [hl.1, List.length_nil, Nat.zero_add]
  | cons x u ih =>
    rw [List.cons_append, List.cons.injEq] at hl
    obtain ⟨rfl, rfl⟩ := hl
    rw [List.length_cons, Nat.add_right_comm, search, hu f List.mem_cons_self,
      if_neg Bool.false_ne_true]
    cases hu' : u ++ q :: v with
    | nil => simp at hu'
    | cons y ys =>
      rw [hu'] at hc
      rw [hc.1]
      exact ih hc.2 hu'.symm fun z hz => hu z (List.mem_cons_of_mem _ hz)

theorem FreeList.search (hF : FreeList base h (pre ++ post)) (hpre : ∀ b ∈ pre, b.stop ≤ bp)
    (hpost : ∀ b ∈ post, bp + headerSize * n ≤ b.addr) (hbp : base < bp) (hn : 0 < n)
    (hf : f ∈ base :: (pre ++ post).map Block.addr) (hfuel : (pre ++ post).length < fuel) :
    search h bp fuel f = .ok (before base pre) := by
  obtain ⟨l, hring, hperm⟩ := hF.ring.exists_rotate hf
  have hmem : before base pre ∈ f :: l := by
    rw [hperm.mem_iff, List.map_append, ← List.cons_append]
    exact List.mem_append_left _ (last_mem _ _)
  obtain ⟨u, v, huv⟩ := List.append_of_mem hmem
  have hnd := hring.1
  rw [huv] at hnd
  have hu : ∀ x ∈ u, atGap h bp x = false := by
    intro x hx
    refine hF.not_atGap hpre hpost hbp hn (hperm.mem_iff.mp (by rw [huv]; simp [hx])) ?_
    rintro rfl
    exact (List.nodup_cons.mp (List.nodup_middle.mp hnd)).1 (List.mem_append_left _ hx)
  have hlen : u.length < fuel := by
    have h1 := congrArg List.length huv
    have h2 := hperm.length_eq
    simp only [List.length_append, List.length_cons, List.length_map] at h1 h2 hfuel
    omega
  obtain ⟨k, rfl⟩ : ∃ k, fuel = u.length + (k + 1) := ⟨fuel - u.length - 1, by omega⟩
  rw [search_skip (chain_append.mp hring.2).1 huv hu, Umalloc.search,
    hF.atGap_before hpre hpost hbp hn, if_pos rfl]

/-- `bp` has become the block `⟨bp, n'⟩`, ready to be linked in between `pre` and `post'`. -/
structure Ready (base : Nat) (h : Heap) (pre post : List Block) (bp n : Nat) (h' : Heap)
    (post' : List Block) (n' : Nat) : Prop where
  ring : Ring (update h.ptr (before base pre) (h'.ptr bp)) base ((pre ++ post').map Block.addr)
  size : (h'.size bp).toNat = n'
  le : n ≤ n'
  joined : n' = n ∨ ∃ c ∈ post, n' = n + c.size
  frame : ∀ a, a ≠ bp → h'.mem a = h.mem a
  sub : post'.Sublist post
  above : ∀ c ∈ post', bp + headerSize * n' < c.addr
  cover : ∀ x, cover post' x + cover [⟨bp, n'⟩] x = cover post x + cover [⟨bp, n⟩] x
  total : total post' + n' = total post + n
  regions : h'.regions = h.regions
  top : h'.top = h.top

theorem FreeList.joinUp (hF : FreeList base h (pre ++ post))
    (hpost : ∀ b ∈ post, bp + headerSize * n ≤ b.addr) (hbp : base < bp)
    (hsize : (h.size bp).toNat = n) (hsum : ∀ c ∈ post, n + c.size < 2 ^ 32) :
    ∃ post' n', Ready base h pre post bp n (joinUp h bp (before base pre)) post' n' := by
  have hc := hF.chain_post
  have hstop : h.stop bp = bp + headerSize * n := by rw [Heap.stop, hsize]
  unfold Umalloc.joinUp
  by_cases hjoin : h.stop bp = h.ptr (before base pre)
  · rw [if_pos hjoin]
    cases post with
    | nil =>
      -- `base` is below `bp`.
      have hnext : h.ptr (before base pre) = base := hc.1
      omega
    | cons c post =>
      have hnext : h.ptr (before base pre) = c.addr := hc.1
      have hcs := hF.size c (by simp)
      rw [hnext, hstop] at hjoin
      rw [hnext]
      have hsum := hsum c List.mem_cons_self
      have hadd : (h.size bp + h.size c.addr).toNat = n + c.size := by
        rw [toNat_add_lt (by omega), hsize, hcs]
      refine ⟨post, n + c.size, ?_, ?_, by omega, .inr ⟨c, List.mem_cons_self, rfl⟩, ?_,
        List.sublist_cons_self c post, ?_, ?_, ?_, rfl, rfl⟩
      · have hring := hF.ring
        rw [List.map_append, List.map_cons] at hring
        rw [List.map_append]
        refine hring.remove ?_ fun y hy => update_of_ne hy ..
        rw [before, update_self]
        simp
      · simpa using hadd
      · intro a ha
        rw [Heap.mem_setPtr ha, Heap.mem_setSize ha]
      · intro d hd
        have hgap := (List.pairwise_append.mp hF.gap).2.1
        have hlt := (List.pairwise_cons.mp hgap).1 d hd
        unfold Block.stop at hlt
        rw [Nat.mul_add]
        omega
      · intro x
        have hcov := covers_join (a := bp) (m := n) (n := c.size) x
        rw [hjoin] at hcov
        simp only [cover_cons, cover_nil]
        change _ + (0 + if _ then 1 else 0) = _ + (if (⟨c.addr, c.size⟩ : Block).Covers x then 1 else 0) + _
        omega
      · rw [total_cons]
        omega
  · rw [if_neg hjoin]
    refine ⟨post, n, ?_, ?_, Nat.le_refl n, .inl rfl, fun a ha => Heap.mem_setPtr ha, .refl _, ?_,
      fun _ => rfl, rfl, rfl, rfl⟩
    · refine hF.ring.congr fun x _ => ?_
      simp only [Heap.ptr_setPtr, if_true, update_apply]
      split
      · next he => rw [he]
      · rfl
    · rw [Heap.size_setPtr]
      exact hsize
    · intro c hcm
      cases post with
      | nil => cases hcm
      | cons d post =>
        have hnext : h.ptr (before base pre) = d.addr := hc.1
        have hd := hpost d List.mem_cons_self
        rcases List.mem_cons.mp hcm with rfl | hcm
        · omega
        · have hgap := (List.pairwise_append.mp hF.gap).2.1
          have hlt := (List.pairwise_cons.mp hgap).1 c hcm
          unfold Block.stop at hlt
          omega

structure Added (base : Nat) (h : Heap) (F : List Block) (bp n : Nat) (h' : Heap) (F' : List Block) :
    Prop where
  list : FreeList base h' F'
  cover : ∀ x, cover F' x = cover F x + cover [⟨bp, n⟩] x
  total : total F' = total F + n
  length : F'.length ≤ F.length + 1
  fits : ∃ b ∈ F', n ≤ b.size
  blocks : ∀ b ∈ F', b ∈ F ∨ b.addr ≤ bp ∧ bp + headerSize * n ≤ b.stop
  frame : ∀ a, a ≠ bp → a ∉ base :: F.map Block.addr → h'.mem a = h.mem a
  regions : h'.regions = h.regions
  top : h'.top = h.top

section JoinDown

variable {h' : Heap} {post' : List Block} {n' : Nat}

theorem before_concat (y : Block) : before base (pre ++ [y]) = y.addr := by
  rw [before, List.map_append, List.map_singleton, last_append_cons]
  rfl

theorem Ready.gap (hr : Ready base h pre post bp n h' post' n') (hF : FreeList base h (pre ++ post)) :
    (pre ++ post').Pairwise (fun b c => b.stop < c.addr) :=
  hF.gap.sublist ((List.Sublist.refl pre).append hr.sub)

theorem Ready.mem (hr : Ready base h pre post bp n h' post' n') (hb : b ∈ pre ++ post') :
    b ∈ pre ++ post :=
  ((List.Sublist.refl pre).append hr.sub).subset hb

theorem Ready.size_of_ne (hr : Ready base h pre post bp n h' post' n') {a : Nat} (ha : a ≠ bp) :
    h'.size a = h.size a := by
  rw [Heap.size, hr.frame a ha, Heap.size]

theorem Ready.addr_ne (hr : Ready base h pre post bp n h' post' n') (hF : FreeList base h (pre ++ post))
    (hpre : ∀ b ∈ pre, b.stop ≤ bp) (hb : b ∈ pre ++ post') : b.addr ≠ bp := by
  have hpos := hF.pos b (hr.mem hb)
  rcases List.mem_append.mp hb with hb | hb
  · have hs := hpre b hb
    unfold Block.stop headerSize at hs
    omega
  · have hs := hr.above b hb
    omega

theorem Ready.link (hr : Ready base h pre post bp n h' post' n') (hF : FreeList base h (pre ++ post))
    (hpre : ∀ b ∈ pre, b.stop ≤ bp) (hbp : base < bp) (hn : 0 < n)
    (hlow : h'.stop (before base pre) ≠ bp) :
    Added base h (pre ++ post) bp n (h'.setPtr (before base pre) bp) (pre ++ ⟨bp, n'⟩ :: post') := by
  have hlt := hF.before_lt hpre hbp
  have hne : ∀ {b}, b ∈ pre ++ post' → b.addr ≠ bp := hr.addr_ne hF hpre
  have hin : ∀ {b}, b ∈ pre ++ ⟨bp, n'⟩ :: post' → b = ⟨bp, n'⟩ ∨ b ∈ pre ++ post' := by
    intro b hb
    simp only [List.mem_append, List.mem_cons] at hb ⊢
    tauto
  -- The block before `bp` ends below it.
  have hbelow : ∀ b ∈ pre, b.stop < bp := by
    intro b hb
    rcases List.eq_nil_or_concat pre with rfl | ⟨pre', y, rfl⟩
    · cases hb
    · rw [List.concat_eq_append] at *
      rw [before_concat] at hlow
      have hy : y.stop ≠ bp := by
        have hsize := hF.size y (by simp)
        rw [Heap.stop, hr.size_of_ne (hne (by simp)), hsize] at hlow
        exact hlow
      rcases List.mem_append.mp hb with hb | hb
      · have hgap := hF.gap
        rw [List.append_assoc] at hgap
        have hlt' := (List.pairwise_append.mp hgap).2.2 b hb y (by simp)
        have hs := hpre y (by simp)
        unfold Block.stop at hs ⊢
        unfold Block.stop at hlt'
        omega
      · rw [List.mem_singleton.mp hb]
        have hs := hpre y (by simp)
        omega
  refine ⟨⟨?_, ?_, ?_, ?_, ?_, ?_⟩, ?_, ?_, ?_, ?_, ?_, ?_, hr.regions, hr.top⟩
  · have hring := hr.ring
    rw [List.map_append] at hring
    rw [List.map_append, List.map_cons]
    refine hring.insert ?_ ?_ ?_ ?_
    · intro hm
      rw [← List.map_append] at hm
      rcases List.mem_cons.mp hm with he | hm
      · change bp = base at he
        omega
      · obtain ⟨b, hb, he⟩ := List.mem_map.mp hm
        exact hne hb he
    · simp [before]
    · change (h'.setPtr (before base pre) bp).ptr bp = update h.ptr (before base pre) (h'.ptr bp)
        (before base pre)
      rw [update_self, Heap.ptr_setPtr, if_neg (by omega)]
    · intro x hx hxb
      change x ≠ before base pre at hx
      rw [Heap.ptr_setPtr, if_neg hx, update_of_ne hx, Heap.ptr, hr.frame x hxb, Heap.ptr]
  · intro b hb
    rw [Heap.size_setPtr]
    rcases hin hb with rfl | hb
    · exact hr.size
    · rw [hr.size_of_ne (hne hb)]
      exact hF.size b (hr.mem hb)
  · rw [Heap.size_setPtr, hr.size_of_ne (by omega)]
    exact hF.bottom
  · have hgap := List.pairwise_append.mp (hr.gap hF)
    refine List.pairwise_append.mpr ⟨hgap.1, List.pairwise_cons.mpr ⟨hr.above, hgap.2.1⟩, ?_⟩
    intro b hb c hc
    rcases List.mem_cons.mp hc with rfl | hc
    · exact hbelow b hb
    · exact hgap.2.2 b hb c hc
  · intro b hb
    rcases hin hb with rfl | hb
    · exact hbp
    · exact hF.low b (hr.mem hb)
  · intro b hb
    rcases hin hb with rfl | hb
    · exact Nat.lt_of_lt_of_le hn hr.le
    · exact hF.pos b (hr.mem hb)
  · intro x
    have hcov := hr.cover x
    simp only [cover_append, cover_cons, cover_nil] at hcov ⊢
    omega
  · have htot := hr.total
    simp only [total_append, total_cons] at htot ⊢
    omega
  · have hlen := hr.sub.length_le
    simp only [List.length_append, List.length_cons]
    omega
  · exact ⟨⟨bp, n'⟩, by simp, hr.le⟩
  · intro b hb
    rcases hin hb with rfl | hb
    · exact .inr ⟨Nat.le_refl _, Nat.add_le_add_left (Nat.mul_le_mul_left _ hr.le) _⟩
    · exact .inl (hr.mem hb)
  · intro a ha hnode
    rw [Heap.mem_setPtr, hr.frame a ha]
    rintro rfl
    rw [List.map_append, ← List.cons_append] at hnode
    exact hnode (List.mem_append_left _ (last_mem _ _))

theorem Ready.join {y : Block} (hr : Ready base h (pre ++ [y]) post bp n h' post' n')
    (hF : FreeList base h (pre ++ [y] ++ post)) (hpre : ∀ b ∈ pre ++ [y], b.stop ≤ bp) (hbp : base < bp)
    (hlow : y.stop = bp) (hsum : y.size + n' < 2 ^ 32) :
    Added base h (pre ++ [y] ++ post) bp n
      ((h'.setSize y.addr (h'.size y.addr + h'.size bp)).setPtr y.addr (h'.ptr bp))
      (pre ++ ⟨y.addr, y.size + n'⟩ :: post') := by
  have hne : ∀ {b}, b ∈ pre ++ [y] ++ post' → b.addr ≠ bp := hr.addr_ne hF hpre
  have hyb : y.addr ≠ bp := hne (by simp)
  have hys : (h'.size y.addr).toNat = y.size := by
    rw [hr.size_of_ne hyb]
    exact hF.size y (by simp)
  have hbase : y.addr ≠ base := by
    have hl := hF.low y (by simp)
    omega
  have haddr : (pre ++ ⟨y.addr, y.size + n'⟩ :: post').map Block.addr =
      (pre ++ [y] ++ post').map Block.addr := by simp
  have hgap := hr.gap hF
  rw [List.append_assoc] at hgap
  obtain ⟨hgpre, hgy, hgcross⟩ := List.pairwise_append.mp hgap
  obtain ⟨hgy, hgpost⟩ := List.pairwise_cons.mp hgy
  have hother : ∀ b ∈ pre ++ post', b.addr ≠ y.addr ∧ b ∈ pre ++ [y] ++ post' := by
    intro b hb
    refine ⟨?_, ?_⟩
    · rcases List.mem_append.mp hb with hb | hb
      · have hlt := hgcross b hb y (by simp)
        unfold Block.stop at hlt
        omega
      · have hlt := hgy b hb
        unfold Block.stop at hlt
        omega
    · simp only [List.mem_append, List.mem_singleton] at hb ⊢
      tauto
  have hin : ∀ {b}, b ∈ pre ++ ⟨y.addr, y.size + n'⟩ :: post' →
      b = ⟨y.addr, y.size + n'⟩ ∨ b ∈ pre ++ post' := by
    intro b hb
    simp only [List.mem_append, List.mem_cons] at hb ⊢
    tauto
  have hsize : (h'.size y.addr + h'.size bp).toNat = y.size + n' := by
    rw [toNat_add_lt (by rw [hys, hr.size]; omega), hys, hr.size]
  refine ⟨⟨?_, ?_, ?_, ?_, ?_, ?_⟩, ?_, ?_, ?_, ?_, ?_, ?_, hr.regions, hr.top⟩
  · rw [haddr]
    refine hr.ring.congr fun x hx => ?_
    rw [before_concat, Heap.ptr_setPtr, Heap.ptr_setSize]
    by_cases hxy : x = y.addr
    · rw [if_pos hxy, hxy, update_self]
    · have hxb : x ≠ bp := by
        rcases List.mem_cons.mp hx with rfl | hx
        · omega
        · obtain ⟨b, hb, rfl⟩ := List.mem_map.mp hx
          exact hne hb
      rw [if_neg hxy, update_of_ne hxy, Heap.ptr, hr.frame x hxb, Heap.ptr]
  · intro b hb
    rw [Heap.size_setPtr, Heap.size_setSize]
    rcases hin hb with rfl | hb
    · rw [if_pos rfl]
      exact hsize
    · obtain ⟨hby, hmem⟩ := hother b hb
      rw [if_neg hby, hr.size_of_ne (hne hmem)]
      exact hF.size b (hr.mem hmem)
  · rw [Heap.size_setPtr, Heap.size_setSize, if_neg hbase.symm, hr.size_of_ne (by omega)]
    exact hF.bottom
  · refine List.pairwise_append.mpr ⟨hgpre, List.pairwise_cons.mpr ⟨fun c hc => ?_, hgpost⟩, ?_⟩
    · have habove := hr.above c hc
      unfold Block.stop at hlow ⊢
      dsimp only
      rw [Nat.mul_add]
      omega
    · intro b hb c hc
      rcases List.mem_cons.mp hc with rfl | hc
      · exact hgcross b hb y (by simp)
      · exact hgcross b hb c (by simp [hc])
  · intro b hb
    rcases hin hb with rfl | hb
    · exact hF.low y (by simp)
    · exact hF.low b (hr.mem (hother b hb).2)
  · intro b hb
    rcases hin hb with rfl | hb
    · have hpos := hF.pos y (by simp)
      dsimp only
      omega
    · exact hF.pos b (hr.mem (hother b hb).2)
  · intro x
    have hcov := hr.cover x
    have hjoin := covers_join (a := y.addr) (m := y.size) (n := n') x
    change _ + (if (⟨y.stop, n'⟩ : Block).Covers x then 1 else 0) = _ at hjoin
    rw [hlow] at hjoin
    simp only [cover_append, cover_cons, cover_nil] at hcov ⊢
    change _ = _ + (0 + if (⟨y.addr, y.size⟩ : Block).Covers x then 1 else 0) + _ + _
    omega
  · have htot := hr.total
    simp only [total_append, total_cons, total_nil] at htot ⊢
    omega
  · have hlen := hr.sub.length_le
    simp only [List.length_append, List.length_cons, List.length_nil]
    omega
  · exact ⟨⟨y.addr, y.size + n'⟩, by simp, Nat.le_trans hr.le (Nat.le_add_left n' y.size)⟩
  · intro b hb
    rcases hin hb with rfl | hb
    · have hle := Nat.mul_le_mul_left headerSize hr.le
      unfold Block.stop at hlow ⊢
      dsimp only
      rw [Nat.mul_add]
      omega
    · exact .inl (hr.mem (hother b hb).2)
  · intro a ha hnode
    have hay : a ≠ y.addr := by
      rintro rfl
      exact hnode (by simp)
    rw [Heap.mem_setPtr hay, Heap.mem_setSize hay, hr.frame a ha]

end JoinDown

theorem FreeList.setFreep (hF : FreeList base h F) (p : Nat) : FreeList base { h with freep := p } F :=
  ⟨hF.ring, hF.size, hF.bottom, hF.gap, hF.low, hF.pos⟩

theorem Added.setFreep {h' : Heap} {F' : List Block} (ha : Added base h F bp n h' F') (p : Nat) :
    Added base h F bp n { h' with freep := p } F' :=
  ⟨ha.list.setFreep p, ha.cover, ha.total, ha.length, ha.fits, ha.blocks, ha.frame, ha.regions, ha.top⟩

/-- A block of `n` units between `pre` and `post` can be joined to its neighbours without an overflow
of the size. -/
structure Joinable (pre post : List Block) (n : Nat) : Prop where
  up : ∀ c ∈ post, n + c.size < 2 ^ 32
  down : ∀ y ∈ pre, y.size + n < 2 ^ 32
  both : ∀ y ∈ pre, ∀ c ∈ post, y.size + (n + c.size) < 2 ^ 32

theorem joinable_of_total (h : total (pre ++ post) + n < 2 ^ 32) : Joinable pre post n := by
  rw [total_append] at h
  refine ⟨fun c hc => ?_, fun y hy => ?_, fun y hy c hc => ?_⟩
  · have := total_le hc
    omega
  · have := total_le hy
    omega
  · have := total_le hy
    have := total_le hc
    omega

theorem FreeList.free (hF : FreeList base h F) (hf : h.freep ∈ base :: F.map Block.addr)
    (hbp : base < bp) (hn : 0 < n) (hsize : (h.size bp).toNat = n)
    (hd : ∀ b ∈ F, b.stop ≤ bp ∨ bp + headerSize * n ≤ b.addr)
    (hjoin : ∀ pre post, F = pre ++ post → (∀ b ∈ post, bp + headerSize * n ≤ b.addr) → Joinable pre post n)
    (hfuel : F.length < fuel) :
    ∃ h' F', free fuel h (bp + headerSize) = .ok h' ∧ Added base h F bp n h' F' ∧
      h'.freep ∈ base :: F'.map Block.addr := by
  obtain ⟨pre, post, rfl, hpre, hpost⟩ := exists_split hF.gap hd
  have hrun : Umalloc.free fuel h (bp + headerSize) =
      .ok { joinDown (Umalloc.joinUp h bp (before base pre)) bp (before base pre) with
        freep := before base pre } := by
    simp only [Umalloc.free, Nat.add_sub_cancel, hF.search hpre hpost hbp hn hf hfuel]
    rfl
  have hjoin := hjoin pre post rfl hpost
  obtain ⟨post', n', hr⟩ := hF.joinUp hpost hbp hsize hjoin.up
  by_cases hlow : (Umalloc.joinUp h bp (before base pre)).stop (before base pre) = bp
  · rcases List.eq_nil_or_concat pre with rfl | ⟨pre', y, rfl⟩
    · -- `base` has no units and is not at `bp`.
      rw [show before base [] = base from rfl] at hr hlow
      rw [Heap.stop, hr.size_of_ne (Nat.ne_of_lt hbp), hF.bottom] at hlow
      exact absurd hlow (Nat.ne_of_lt hbp)
    · rw [List.concat_eq_append] at *
      rw [before_concat] at hr hrun hlow
      have hys := hF.size y (by simp)
      have hyb : y.addr ≠ bp := hr.addr_ne hF hpre (by simp)
      refine ⟨_, pre' ++ ⟨y.addr, y.size + n'⟩ :: post', hrun, ?_, ?_⟩
      · rw [joinDown, if_pos hlow]
        have hy : y ∈ pre' ++ [y] := List.mem_append_right _ (List.mem_singleton_self y)
        refine (hr.join hF hpre hbp ?_ ?_).setFreep _
        · rw [← hlow, Heap.stop, hr.size_of_ne hyb, hys, Block.stop]
        · rcases hr.joined with rfl | ⟨c, hc, rfl⟩
          · exact hjoin.down y hy
          · exact hjoin.both y hy c hc
      · simp
  · refine ⟨_, pre ++ ⟨bp, n'⟩ :: post', hrun, ?_, ?_⟩
    · rw [joinDown, if_neg hlow]
      exact (hr.link hF hpre hbp hn hlow).setFreep _
    · rw [List.map_append, ← List.cons_append]
      exact List.mem_append_left _ (last_mem _ _)

end Xv6.Umalloc
