import Xv6.BlockOwner
import Xv6.Fs

/-! The places where an inode stores block numbers, and the contents of a file as they
are read through them. -/

namespace Xv6

open BlockOwner Function

structure FileView where
  type : FileType
  major : Int
  minor : Int
  nlink : Int
  size : Nat
  byte : Nat → UInt8

def FileView.free : FileView := ⟨.none, 0, 0, 0, 0, fun _ => 0⟩

namespace Fs

/-- Slots 0 to 11 are the direct addresses, slot 12 is the indirect block and the slots
after it are its words. -/
def slotAddr (data : Nat → Buffer) (d : Dinode) (k : Nat) : Nat :=
  if k ≤ NDIRECT then d.addrs k
  else if d.addrs NDIRECT = 0 then 0
  else word (data (d.addrs NDIRECT)) (k - (NDIRECT + 1))

def slotOf (bn : Nat) : Nat := if bn < NDIRECT then bn else bn + 1

def fileBlock (data : Nat → Buffer) (d : Dinode) (bn : Nat) : Nat := slotAddr data d (slotOf bn)

def own (data : Nat → Buffer) (inos : Nat → Dinode) (p : Nat × Nat) : Nat :=
  if p.2 ≤ MAXFILE ∧ (inos p.1).type ≠ .none then slotAddr data (inos p.1) p.2 else 0

def view (data : Nat → Buffer) (d : Dinode) : FileView :=
  if d.type = .none then FileView.free
  else ⟨d.type, d.major, d.minor, d.nlink, d.size, fun off =>
    if off < d.size then data (fileBlock data d (off / BSIZE)) (off % BSIZE) else 0⟩

structure Blocks (sb : Superblock) (bm : Nat → Bool) (data : Nat → Buffer)
    (inos : Nat → Dinode) : Prop where
  owned : Owned sb.datastart sb.size bm (own data inos)
  full : ∀ i, (inos i).type ≠ .none → ∀ bn, bn * BSIZE < (inos i).size →
    fileBlock data (inos i) bn ≠ 0
  fits : ∀ i, (inos i).type ≠ .none → (inos i).size ≤ MAXFILE * BSIZE

variable {sb : Superblock} {bm : Nat → Bool} {data data' : Nat → Buffer} {inos inos' : Nat → Dinode}
  {i ip bn b j k cn : Nat} {d e : Dinode}

/-- From `f` to `g` inode `ip` only gets blocks, in slots that had none, and the slots of
every other inode are unchanged. -/
def Attached (ip : Nat) (f g : Nat × Nat → Nat) : Prop := ∀ p, g p = f p ∨ p.1 = ip ∧ f p = 0

theorem Attached.refl (ip : Nat) (f : Nat × Nat → Nat) : Attached ip f f := fun _ => .inl rfl

theorem Attached.trans {f g k : Nat × Nat → Nat} (h : Attached ip f g) (h' : Attached ip g k) :
    Attached ip f k := by
  intro p
  rcases h p with he | hp
  · rw [← he]
    exact h' p
  · exact .inr hp

theorem Attached.of_ne {f g : Nat × Nat → Nat} (h : Attached ip f g) {p : Nat × Nat} (hp : p.1 ≠ ip) :
    g p = f p := (h p).resolve_right fun hc => hp hc.1

theorem slotOf_le (h : bn < MAXFILE) : slotOf bn ≤ MAXFILE := by
  unfold slotOf
  split <;> omega

theorem slotOf_ne (bn : Nat) : slotOf bn ≠ NDIRECT := by
  unfold slotOf
  split <;> omega

theorem slotOf_injective (h : slotOf bn = slotOf cn) : bn = cn := by
  unfold slotOf at h
  split at h <;> split at h <;> omega

theorem own_of_type (ht : (inos i).type ≠ .none) (hk : k ≤ MAXFILE) :
    own data inos (i, k) = slotAddr data (inos i) k := if_pos ⟨hk, ht⟩

theorem own_fileBlock (ht : (inos i).type ≠ .none) (hbn : bn < MAXFILE) :
    own data inos (i, slotOf bn) = fileBlock data (inos i) bn :=
  own_of_type ht (slotOf_le hbn)

theorem own_indirect (ht : (inos i).type ≠ .none) :
    own data inos (i, NDIRECT) = (inos i).addrs NDIRECT := by
  rw [own_of_type ht (by decide), slotAddr, if_pos (Nat.le_refl _)]

theorem Blocks.block_lt (h : Blocks sb bm data inos) (ht : (inos i).type ≠ .none)
    (hbn : bn * BSIZE < (inos i).size) : bn < MAXFILE := by
  have hfit := h.fits i ht
  simp only [MAXFILE, NDIRECT, NINDIRECT, BSIZE] at hfit hbn ⊢
  omega

theorem Blocks.fileBlock_ne_indirect (h : Blocks sb bm data inos) (hi : (inos i).type ≠ .none)
    (hj : (inos j).type ≠ .none) (hbn : bn < MAXFILE) (hne : fileBlock data (inos i) bn ≠ 0) :
    fileBlock data (inos i) bn ≠ (inos j).addrs NDIRECT := by
  intro he
  rw [← own_fileBlock hi hbn] at he hne
  rw [← show own data inos (j, NDIRECT) = _ from own_indirect hj] at he
  have hp := h.owned.unique _ _ hne he
  exact slotOf_ne bn (congrArg Prod.snd hp)

theorem Blocks.fileBlock_injective (h : Blocks sb bm data inos) (hi : (inos i).type ≠ .none)
    (hj : (inos j).type ≠ .none) (hbn : bn < MAXFILE) (hcn : cn < MAXFILE)
    (hne : fileBlock data (inos i) bn ≠ 0)
    (he : fileBlock data (inos i) bn = fileBlock data (inos j) cn) : i = j ∧ bn = cn := by
  rw [← own_fileBlock hi hbn] at he hne
  rw [← own_fileBlock hj hcn] at he
  have hp := h.owned.unique _ _ hne he
  exact ⟨congrArg Prod.fst hp, slotOf_injective (congrArg Prod.snd hp)⟩

structure SameMeta (d e : Dinode) : Prop where
  type : d.type = e.type
  major : d.major = e.major
  minor : d.minor = e.minor
  nlink : d.nlink = e.nlink
  size : d.size = e.size

theorem SameMeta.refl (d : Dinode) : SameMeta d d := ⟨rfl, rfl, rfl, rfl, rfl⟩

theorem SameMeta.trans {f : Dinode} (h : SameMeta d e) (h' : SameMeta e f) : SameMeta d f :=
  ⟨h.type.trans h'.type, h.major.trans h'.major, h.minor.trans h'.minor,
    h.nlink.trans h'.nlink, h.size.trans h'.size⟩

theorem sameMeta_setAddr (d : Dinode) (k b : Nat) : SameMeta (d.setAddr k b) d :=
  ⟨rfl, rfl, rfl, rfl, rfl⟩

theorem view_congr (hm : SameMeta d e)
    (hb : ∀ bn, bn * BSIZE < e.size → data' (fileBlock data' d bn) = data (fileBlock data e bn)) :
    view data' d = view data e := by
  unfold view
  rw [hm.type, hm.major, hm.minor, hm.nlink, hm.size]
  congr 2
  funext off
  split
  · rw [hb (off / BSIZE) (Nat.lt_of_le_of_lt (Nat.div_mul_le_self off BSIZE) ‹_›)]
  · rfl

structure Keeps (ip : Nat) (data : Nat → Buffer) (inos : Nat → Dinode) (data' : Nat → Buffer)
    (inos' : Nat → Dinode) : Prop where
  same : ∀ i, SameMeta (inos' i) (inos i)
  block : ∀ i bn, (inos i).type ≠ .none → bn < MAXFILE → fileBlock data (inos i) bn ≠ 0 →
    fileBlock data' (inos' i) bn = fileBlock data (inos i) bn
  bytes : ∀ i bn, (inos i).type ≠ .none → bn < MAXFILE → fileBlock data (inos i) bn ≠ 0 →
    data' (fileBlock data (inos i) bn) = data (fileBlock data (inos i) bn)
  slots : Attached ip (own data inos) (own data' inos')

theorem Keeps.refl (ip : Nat) (data : Nat → Buffer) (inos : Nat → Dinode) :
    Keeps ip data inos data inos :=
  ⟨fun _ => SameMeta.refl _, fun _ _ _ _ _ => rfl, fun _ _ _ _ _ => rfl, .refl _ _⟩

theorem Keeps.trans {data₂ : Nat → Buffer} {inos₂ : Nat → Dinode} (h : Keeps ip data inos data' inos')
    (h' : Keeps ip data' inos' data₂ inos₂) :
    Keeps ip data inos data₂ inos₂ where
  same i := (h'.same i).trans (h.same i)
  block i bn ht hbn hne := by
    have he := h.block i bn ht hbn hne
    rw [← he] at hne ⊢
    exact h'.block i bn ((h.same i).type ▸ ht) hbn hne
  bytes i bn ht hbn hne := by
    have he := h.block i bn ht hbn hne
    have hb := h'.bytes i bn ((h.same i).type ▸ ht) hbn (he ▸ hne)
    rw [he] at hb
    rw [hb, h.bytes i bn ht hbn hne]
  slots := h.slots.trans h'.slots

theorem Blocks.view_eq (h : Blocks sb bm data inos) (hk : Keeps ip data inos data' inos') (i : Nat) :
    view data' (inos' i) = view data (inos i) := by
  by_cases ht : (inos i).type = .none
  · rw [view, view, if_pos ht, if_pos ((hk.same i).type.trans ht)]
  · refine view_congr (hk.same i) fun bn hbn => ?_
    rw [hk.block i bn ht (h.block_lt ht hbn) (h.full i ht bn hbn),
      hk.bytes i bn ht (h.block_lt ht hbn) (h.full i ht bn hbn)]

theorem Blocks.grow (h : Blocks sb bm data inos) (hb : bm b = false) (hlt : b < sb.size)
    (hz : own data inos (ip, k) = 0) (hown : own data' inos' = update (own data inos) (ip, k) b)
    (hm : ∀ i, SameMeta (inos' i) (inos i))
    (hdata : ∀ i bn, (inos i).type ≠ .none → bn < MAXFILE → fileBlock data (inos i) bn ≠ 0 →
      data' (fileBlock data (inos i) bn) = data (fileBlock data (inos i) bn)) :
    Blocks sb (update bm b true) data' inos' ∧ Keeps ip data inos data' inos' := by
  have hkeep : Keeps ip data inos data' inos' := by
    refine ⟨hm, fun i bn ht hbn hne => ?_, hdata, fun p => ?_⟩
    · rw [← own_fileBlock ht hbn] at hne ⊢
      have hslot : (i, slotOf bn) ≠ (ip, k) := by
        intro he
        rw [he] at hne
        exact hne hz
      rw [← own_fileBlock ((hm i).type ▸ ht) hbn, hown, update_of_ne hslot]
    · rw [hown]
      by_cases hp : p = (ip, k)
      · exact .inr (by rw [hp]; exact ⟨rfl, hz⟩)
      · exact .inl (update_of_ne hp _ _)
  refine ⟨⟨hown ▸ h.owned.alloc hb hlt hz, ?_, ?_⟩, hkeep⟩
  · intro i ht bn hbn
    rw [(hm i).type] at ht
    rw [(hm i).size] at hbn
    rw [hkeep.block i bn ht (h.block_lt ht hbn) (h.full i ht bn hbn)]
    exact h.full i ht bn hbn
  · intro i ht
    rw [(hm i).type] at ht
    rw [(hm i).size]
    exact h.fits i ht

theorem word_zero (j : Nat) : word (fun _ => 0) j = 0 := rfl

theorem word_setWord (buf : Buffer) (hb : b < 2 ^ 32) : word (setWord buf j b) j = b := by
  rw [word, setWord, Buffer.getLE_setLE]
  exact Nat.mod_eq_of_lt hb

theorem word_setWord_of_ne (buf : Buffer) {m : Nat} (hne : m ≠ j) (b : Nat) :
    word (setWord buf j b) m = word buf m :=
  Buffer.getLE_setLE_disjoint (by omega)

theorem slotAddr_data_congr
    (hd : d.addrs NDIRECT ≠ 0 → data' (d.addrs NDIRECT) = data (d.addrs NDIRECT)) (k : Nat) :
    slotAddr data' d k = slotAddr data d k := by
  unfold slotAddr
  split
  · rfl
  · split
    · rfl
    · rw [hd ‹_›]

theorem own_of_free (ht : (inos i).type = .none) (k : Nat) : own data inos (i, k) = 0 :=
  if_neg fun h => h.2 ht

theorem own_congr (ht : (inos' i).type = (inos i).type)
    (hs : (inos i).type ≠ .none → slotAddr data' (inos' i) k = slotAddr data (inos i) k) :
    own data' inos' (i, k) = own data inos (i, k) := by
  by_cases hf : (inos i).type = .none
  · rw [own_of_free hf, own_of_free (ht.trans hf)]
  · simp only [own, ht, hs hf]

theorem Blocks.indirect_ne (h : Blocks sb bm data inos) (ht : (inos i).type ≠ .none)
    (hb : bm b = false) : (inos i).addrs NDIRECT ≠ b := by
  rw [← show own data inos (i, NDIRECT) = _ from own_indirect ht]
  exact h.owned.unmarked_ne hb _

theorem Blocks.fileBlock_ne (h : Blocks sb bm data inos) (ht : (inos i).type ≠ .none)
    (hbn : bn < MAXFILE) (hb : bm b = false) : fileBlock data (inos i) bn ≠ b := by
  rw [← own_fileBlock ht hbn]
  exact h.owned.unmarked_ne hb _

theorem Blocks.allocAddr (h : Blocks sb bm data inos) (hb : bm b = false) (hlt : b < sb.size)
    (ht : (inos ip).type ≠ .none) (hk : k ≤ NDIRECT) (hz : (inos ip).addrs k = 0) :
    Blocks sb (update bm b true) (update data b (fun _ => 0))
        (update inos ip ((inos ip).setAddr k b)) ∧
      Keeps ip data inos (update data b (fun _ => 0))
        (update inos ip ((inos ip).setAddr k b)) := by
  have hmeta : ∀ i, SameMeta (update inos ip ((inos ip).setAddr k b) i) (inos i) := by
    intro i
    by_cases hi : i = ip
    · rw [hi, update_self]
      exact sameMeta_setAddr _ _ _
    · rw [update_of_ne hi]
      exact SameMeta.refl _
  have hslot : own data inos (ip, k) = 0 := by
    rw [own_of_type ht (Nat.le_trans hk (by decide)), slotAddr, if_pos hk, hz]
  refine h.grow hb hlt hslot ?_ hmeta ?_
  · funext ⟨i, m⟩
    by_cases hi : i = ip
    · subst i
      by_cases hm : m = k
      · rw [hm, update_self, own_of_type (by rwa [(hmeta ip).type])
          (Nat.le_trans hk (by decide)), slotAddr, if_pos hk, update_self]
        exact update_self ..
      · rw [update_of_ne (fun he => hm (congrArg Prod.snd he))]
        refine own_congr (hmeta ip).type fun _ => ?_
        rw [update_self]
        unfold slotAddr
        by_cases hm12 : m ≤ NDIRECT
        · rw [if_pos hm12, if_pos hm12]
          exact update_of_ne hm _ _
        · rw [if_neg hm12, if_neg hm12]
          by_cases hk12 : NDIRECT = k
          · -- the new indirect block is all zeros
            rw [← hk12] at hz ⊢
            have hnew : ((inos ip).setAddr NDIRECT b).addrs NDIRECT = b := by
              simp only [Dinode.setAddr, update_self]
            rw [hnew, update_self, word_zero, if_pos hz, ite_self]
          · have hold : ((inos ip).setAddr k b).addrs NDIRECT = (inos ip).addrs NDIRECT :=
              update_of_ne hk12 _ _
            rw [hold, update_of_ne (h.indirect_ne ht hb)]
    · rw [update_of_ne (fun he => hi (congrArg Prod.fst he))]
      refine own_congr (hmeta i).type fun hti => ?_
      rw [update_of_ne hi]
      exact slotAddr_data_congr (fun _ => update_of_ne (h.indirect_ne hti hb) _ _) m
  · intro i bn hti hbn _
    exact update_of_ne (h.fileBlock_ne hti hbn hb) _ _

theorem Blocks.allocWord (h : Blocks sb bm data inos) (hb : bm b = false) (hlt : b < sb.size)
    (ht : (inos ip).type ≠ .none) (hj : j < NINDIRECT) (hind : (inos ip).addrs NDIRECT ≠ 0)
    (hz : word (data ((inos ip).addrs NDIRECT)) j = 0) :
    Blocks sb (update bm b true)
        (update (update data b (fun _ => 0)) ((inos ip).addrs NDIRECT)
          (setWord (data ((inos ip).addrs NDIRECT)) j b)) inos ∧
      Keeps ip data inos (update (update data b (fun _ => 0))
        ((inos ip).addrs NDIRECT) (setWord (data ((inos ip).addrs NDIRECT)) j b)) inos := by
  have hjm : NDIRECT + 1 + j ≤ MAXFILE := by
    simp only [MAXFILE, NDIRECT, NINDIRECT, BSIZE] at hj ⊢
    omega
  have hslotAddr : ∀ m, slotAddr data (inos ip) (NDIRECT + 1 + m) =
      word (data ((inos ip).addrs NDIRECT)) m := by
    intro m
    rw [slotAddr, if_neg (by omega), if_neg hind, Nat.add_sub_cancel_left]
  have hslot : own data inos (ip, NDIRECT + 1 + j) = 0 := by
    rw [own_of_type ht hjm, hslotAddr, hz]
  refine h.grow hb hlt hslot ?_ (fun i => SameMeta.refl _) ?_
  · funext ⟨i, m⟩
    by_cases hi : i = ip
    · subst i
      by_cases hm12 : m ≤ NDIRECT
      · rw [update_of_ne (fun he => by have := congrArg Prod.snd he; simp only at this; omega)]
        refine own_congr rfl fun _ => ?_
        rw [slotAddr, slotAddr, if_pos hm12, if_pos hm12]
      · obtain ⟨m, rfl⟩ : ∃ n, m = NDIRECT + 1 + n := ⟨m - (NDIRECT + 1), by omega⟩
        have hnew : ∀ n, slotAddr (update (update data b (fun _ => 0))
            ((inos ip).addrs NDIRECT) (setWord (data ((inos ip).addrs NDIRECT)) j b)) (inos ip)
            (NDIRECT + 1 + n) = word (setWord (data ((inos ip).addrs NDIRECT)) j b) n := by
          intro n
          rw [slotAddr, if_neg (by omega), if_neg hind, Nat.add_sub_cancel_left,
            update_self]
        by_cases hm : m = j
        · rw [hm, update_self, own_of_type ht hjm, hnew,
            word_setWord _ (Nat.lt_of_lt_of_le hlt sb.size_le)]
        · rw [update_of_ne (fun he => hm (by have := congrArg Prod.snd he; simp only at this; omega))]
          refine own_congr rfl fun _ => ?_
          rw [hnew, hslotAddr, word_setWord_of_ne _ hm]
    · rw [update_of_ne (fun he => hi (congrArg Prod.fst he))]
      refine own_congr rfl fun hti => slotAddr_data_congr (fun hne => ?_) m
      have hother : (inos i).addrs NDIRECT ≠ (inos ip).addrs NDIRECT := by
        intro he
        rw [← show own data inos (i, NDIRECT) = _ from own_indirect hti] at he hne
        rw [← show own data inos (ip, NDIRECT) = _ from own_indirect ht] at he
        exact hi (congrArg Prod.fst (h.owned.unique _ _ hne he))
      rw [update_of_ne hother, update_of_ne (h.indirect_ne hti hb)]
  · intro i bn hti hbn hne
    rw [update_of_ne (h.fileBlock_ne_indirect hti ht hbn hne),
      update_of_ne (h.fileBlock_ne hti hbn hb)]

theorem own_setInode (ht : d.type = .none ↔ (inos i).type = .none)
    (hs : ∀ k, k ≤ MAXFILE → slotAddr data d k = slotAddr data (inos i) k) :
    own data (update inos i d) = own data inos := by
  funext ⟨j, k⟩
  by_cases hj : j = i
  · subst j
    simp only [own, update_self, Ne, ht]
    split
    · exact hs k (And.left ‹_›)
    · rfl
  · simp only [own, update_of_ne hj]

theorem Blocks.setInode (h : Blocks sb bm data inos) (hown : own data (update inos i d) = own data inos)
    (hfull : d.type ≠ .none → ∀ bn, bn * BSIZE < d.size → fileBlock data d bn ≠ 0)
    (hfits : d.type ≠ .none → d.size ≤ MAXFILE * BSIZE) :
    Blocks sb bm data (update inos i d) where
  owned := hown ▸ h.owned
  full j := by
    by_cases hj : j = i
    · rw [hj, update_self]
      exact hfull
    · rw [update_of_ne hj]
      exact h.full j
  fits j := by
    by_cases hj : j = i
    · rw [hj, update_self]
      exact hfits
    · rw [update_of_ne hj]
      exact h.fits j

theorem Blocks.fileBlock_write (h : Blocks sb bm data inos) (ht : (inos ip).type ≠ .none)
    (hbn : bn < MAXFILE) (hne : fileBlock data (inos ip) bn ≠ 0) (buf : Buffer)
    (hti : (inos i).type ≠ .none) (k : Nat) :
    slotAddr (update data (fileBlock data (inos ip) bn) buf) (inos i) k =
      slotAddr data (inos i) k :=
  slotAddr_data_congr (fun _ =>
    update_of_ne (h.fileBlock_ne_indirect ht hti hbn hne).symm _ _) k

theorem Blocks.own_write (h : Blocks sb bm data inos) (ht : (inos ip).type ≠ .none) (hbn : bn < MAXFILE)
    (hne : fileBlock data (inos ip) bn ≠ 0) (buf : Buffer) :
    own (update data (fileBlock data (inos ip) bn) buf) inos = own data inos := by
  funext ⟨i, k⟩
  exact own_congr rfl fun hti => h.fileBlock_write ht hbn hne buf hti k

theorem Blocks.write (h : Blocks sb bm data inos) (ht : (inos ip).type ≠ .none) (hbn : bn < MAXFILE)
    (hne : fileBlock data (inos ip) bn ≠ 0) (buf : Buffer) :
    Blocks sb bm (update data (fileBlock data (inos ip) bn) buf) inos where
  owned := by
    rw [h.own_write ht hbn hne]
    exact h.owned
  full i hti cn hcn := by
    rw [fileBlock, h.fileBlock_write ht hbn hne buf hti]
    exact h.full i hti cn hcn
  fits := h.fits

end Fs

end Xv6
