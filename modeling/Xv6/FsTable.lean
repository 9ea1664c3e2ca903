import Mathlib.Data.List.Dedup
import Mathlib.Data.List.Perm.Subperm
import Xv6.FsCalls
import Xv6.FsContents

/-! The inode table between the steps of a system call: which references the call and the
processes hold, which inodes are locked, and how the in-memory copies agree with the
disk. -/

namespace Xv6

open BlockOwner Function StateProg

namespace Fs

variable {sb : Superblock} {A : FsPanic → Prop} {s t u : Fs} {ip inum : Nat}
  {refs lk refs' lk' : List Nat} {data : Nat → Buffer} {d : Dinode} {bm : Nat → Bool}
  {inos f : Nat → Dinode} {m : MemInode}

def files (s : Fs) (i : Nat) : FileView := view s.data (s.dinode i)

def slots (s : Fs) : Nat × Nat → Nat := own s.data s.dinode

/-- `refs` are the references that exist and `lk` the inodes that are locked. Nobody
refers to a free inode for long: a reference to one is not valid yet, and locking it
panics. An inode without links is kept by a reference. -/
structure Good (sb : Superblock) (s : Fs) (refs lk : List Nat) : Prop where
  blocks : Blocks sb s.bitmap s.data s.dinode
  ref : ∀ i, (s.itable i).ref = refs.count i
  locked : ∀ i, (s.itable i).locked = decide (i ∈ lk)
  held : ∀ i ∈ lk, i ∈ refs ∧ (s.itable i).valid = true
  synced : ∀ i ∈ refs, (s.itable i).valid = true → s.din i = s.dinode i
  typed : ∀ i ∈ refs, (s.itable i).valid = true → (s.dinode i).type ≠ .none
  orphan : ∀ i, (s.dinode i).type ≠ .none → (s.dinode i).nlink = 0 →
    i ∈ refs ∧ (s.itable i).valid = true
  inum : ∀ i, (s.dinode i).type ≠ .none → 0 < i ∧ i < sb.ninodes
  short : ∀ i, short (s.dinode i).nlink = (s.dinode i).nlink

structure SameDisk (s t : Fs) : Prop where
  bitmap : t.bitmap = s.bitmap
  data : t.data = s.data
  dinode : t.dinode = s.dinode

theorem SameDisk.refl (s : Fs) : SameDisk s s := ⟨rfl, rfl, rfl⟩

theorem SameDisk.trans (h : SameDisk s t) (h' : SameDisk t u) : SameDisk s u :=
  ⟨h'.bitmap.trans h.bitmap, h'.data.trans h.data, h'.dinode.trans h.dinode⟩

theorem SameDisk.files (h : SameDisk s t) : t.files = s.files := by
  funext i
  rw [Fs.files, Fs.files, h.data, h.dinode]

theorem SameDisk.slots (h : SameDisk s t) : t.slots = s.slots := by
  rw [Fs.slots, h.data, h.dinode, Fs.slots]

theorem Good.perm (h : Good sb s refs lk) (hp : refs.Perm refs') :
    Good sb s refs' lk where
  blocks := h.blocks
  ref i := by rw [h.ref, hp.count_eq]
  locked := h.locked
  held i hi := ⟨hp.mem_iff.mp (h.held i hi).1, (h.held i hi).2⟩
  synced i hi := h.synced i (hp.mem_iff.mpr hi)
  typed i hi := h.typed i (hp.mem_iff.mpr hi)
  orphan i ht hn := ⟨hp.mem_iff.mp (h.orphan i ht hn).1, (h.orphan i ht hn).2⟩
  inum := h.inum
  short := h.short

theorem Good.locks (h : Good sb s refs lk) (hp : lk.Perm lk') : Good sb s refs lk' :=
  { h with
    locked := fun i => by rw [h.locked]; simp only [hp.mem_iff]
    held := fun i hi => h.held i (hp.mem_iff.mpr hi) }

theorem Good.inos_eq (h : Good sb s refs lk) (hl : ip ∈ lk) : s.inos ip = s.dinode := by
  rw [inos, h.synced ip (h.held ip hl).1 (h.held ip hl).2, update_eq_self]

theorem Good.locked_typed (h : Good sb s refs lk) (hl : ip ∈ lk) : (s.din ip).type ≠ .none := by
  rw [h.synced ip (h.held ip hl).1 (h.held ip hl).2]
  exact h.typed ip (h.held ip hl).1 (h.held ip hl).2

theorem Good.locked_din (h : Good sb s refs lk) (hl : ip ∈ lk) : s.din ip = s.dinode ip :=
  h.synced ip (h.held ip hl).1 (h.held ip hl).2

theorem Good.locked_blocks (h : Good sb s refs lk) (hl : ip ∈ lk) :
    Blocks sb s.bitmap s.data (s.inos ip) := by
  rw [h.inos_eq hl]
  exact h.blocks

theorem view_type (data : Nat → Buffer) (d : Dinode) : (view data d).type = d.type := by
  unfold view
  split
  · exact ‹d.type = .none›.symm
  · rfl

theorem files_type (s : Fs) (i : Nat) : (s.files i).type = (s.dinode i).type := view_type _ _

theorem files_nlink (ht : (s.dinode ip).type ≠ .none) : (s.files ip).nlink = (s.dinode ip).nlink := by
  rw [files, view, if_neg ht]

theorem files_size (ht : (s.dinode ip).type ≠ .none) : (s.files ip).size = (s.dinode ip).size := by
  rw [files, view, if_neg ht]

theorem sameDisk_setEntry (s : Fs) (ip : Nat) (m : MemInode) : SameDisk s (s.setEntry ip m) :=
  ⟨rfl, rfl, rfl⟩

theorem Good.setEntry (h : Good sb s refs lk) (hrefs : ∀ i, i ≠ ip → refs'.count i = refs.count i)
    (hlk : ∀ i, i ≠ ip → (i ∈ lk' ↔ i ∈ lk)) (href : m.ref = refs'.count ip)
    (hlocked : m.locked = decide (ip ∈ lk')) (hheld : ip ∈ lk' → ip ∈ refs' ∧ m.valid = true)
    (hvalid : ip ∈ refs' → m.valid = true → m.din = s.dinode ip ∧ (s.dinode ip).type ≠ .none)
    (horph : (s.dinode ip).type ≠ .none → (s.dinode ip).nlink = 0 →
      ip ∈ refs' ∧ m.valid = true) : Good sb (s.setEntry ip m) refs' lk' := by
  have hmem : ∀ i, i ≠ ip → (i ∈ refs' ↔ i ∈ refs) := by
    intro i hi
    rw [← List.count_pos_iff, ← List.count_pos_iff, hrefs i hi]
  have hself : (s.setEntry ip m).itable ip = m := update_self ..
  have hother : ∀ i, i ≠ ip → (s.setEntry ip m).itable i = s.itable i :=
    fun i hi => update_of_ne hi _ _
  refine ⟨h.blocks, fun i => ?_, fun i => ?_, fun i hin => ?_, fun i hin hv => ?_,
    fun i hin hv => ?_, fun i ht hn => ?_, h.inum, h.short⟩
  · by_cases hi : i = ip
    · rw [hi, hself, href]
    · rw [hother i hi, h.ref, hrefs i hi]
  · by_cases hi : i = ip
    · rw [hi, hself, hlocked]
    · rw [hother i hi, h.locked]
      simp only [hlk i hi]
  · by_cases hi : i = ip
    · subst i
      rw [hself]
      exact hheld hin
    · rw [hother i hi, hmem i hi]
      exact h.held i ((hlk i hi).mp hin)
  · by_cases hi : i = ip
    · subst i
      rw [din, hself]
      rw [hself] at hv
      exact (hvalid hin hv).1
    · rw [hother i hi] at hv
      rw [din, hother i hi]
      exact h.synced i ((hmem i hi).mp hin) hv
  · by_cases hi : i = ip
    · subst i
      rw [hself] at hv
      exact (hvalid hin hv).2
    · rw [hother i hi] at hv
      exact h.typed i ((hmem i hi).mp hin) hv
  · by_cases hi : i = ip
    · subst i
      rw [hself]
      exact horph ht hn
    · rw [hother i hi, hmem i hi]
      exact h.orphan i ht hn

theorem count_cons_of_ne {i : Nat} (hi : i ≠ ip) : (ip :: refs).count i = refs.count i :=
  List.count_cons_of_ne (Ne.symm hi)

/-- The in-memory inode table has an entry left for one more than `n` references, or the panic
about that is allowed. -/
def Room (A : FsPanic → Prop) (n : Nat) : Prop := A .igetNoInodes ∨ n < NINODE

theorem Room.mono {n m : Nat} (h : Room A n) (hm : m ≤ n) : Room A m :=
  h.imp_right (Nat.lt_of_le_of_lt hm)

theorem Good.inUse_le (h : Good sb s refs lk) : s.inUse sb ≤ refs.dedup.length := by
  rw [inUse, List.countP_eq_length_filter]
  refine (List.Nodup.subperm (List.nodup_range.filter _) ?_).length_le
  intro i hi
  have hpos := (List.mem_filter.mp hi).2
  rw [h.ref, decide_eq_true_eq, List.count_pos_iff] at hpos
  exact List.mem_dedup.mpr hpos

def Fits (A : FsPanic → Prop) (refs : List Nat) (inum : Nat) : Prop :=
  A .igetNoInodes ∨ inum ∈ refs ∨ refs.dedup.length < NINODE

theorem Room.fits (h : Room A refs.length) (inum : Nat) : Fits A refs inum := by
  have hle := refs.dedup_sublist.length_le
  exact h.imp_right fun hlt => .inr (by omega)

theorem Good.noInodes (h : Good sb s refs lk) (hA : Fits A refs inum) (hinum : inum ∉ refs)
    (hfull : NINODE ≤ s.inUse sb) : A .igetNoInodes := by
  have := h.inUse_le
  exact hA.resolve_right fun hor => by
    rcases hor with hin | hlt
    · exact hinum hin
    · omega

theorem iget_fits (h : Good sb s refs lk) (hA : Fits A refs inum) :
    WpUpTo A (iget sb inum) (fun r t => r = inum ∧ Good sb t (inum :: refs) lk ∧ SameDisk s t) s := by
  apply upTo_bind_get
  dsimp only
  split
  · rename_i hpos
    apply upTo_bind_modify
    refine upTo_pure ⟨rfl, ?_, sameDisk_setEntry _ _ _⟩
    have hmem : inum ∈ refs := by
      rw [h.ref] at hpos
      exact List.count_pos_iff.mp hpos
    refine h.setEntry (fun i hi => count_cons_of_ne hi) (fun _ _ => Iff.rfl) ?_ (h.locked inum)
      (fun hl => ⟨List.mem_cons_self, (h.held inum hl).2⟩)
      (fun _ hv => ⟨h.synced inum hmem hv, h.typed inum hmem hv⟩)
      (fun ht hn => ⟨List.mem_cons_self, (h.orphan inum ht hn).2⟩)
    rw [h.ref, List.count_cons_self]
  · rename_i hzero
    have hnot : inum ∉ refs := by
      rw [h.ref, List.count_pos_iff] at hzero
      exact hzero
    split
    · rename_i hfull
      exact upTo_throw (h.noInodes hA hnot hfull)
    · apply upTo_bind_modify
      refine upTo_pure ⟨rfl, ?_, sameDisk_setEntry _ _ _⟩
      refine h.setEntry (fun i hi => count_cons_of_ne hi) (fun _ _ => Iff.rfl) ?_ (h.locked inum)
        (fun hl => absurd (h.held inum hl).1 hnot) fun _ hv => by contradiction
        fun ht hn => absurd (h.orphan inum ht hn).1 hnot
      rw [List.count_cons_self, List.count_eq_zero_of_not_mem hnot]

theorem idup_spec (h : Good sb s refs lk) (hr : ip ∈ refs) : WpUpTo A (idup ip) (fun r t =>
    r = ip ∧ Good sb t (ip :: refs) lk ∧ SameDisk s t) s := by
  apply upTo_bind_modify
  refine upTo_pure ⟨rfl, ?_, sameDisk_setEntry _ _ _⟩
  refine h.setEntry (fun i hi => count_cons_of_ne hi) (fun _ _ => Iff.rfl) ?_ (h.locked ip)
    (fun hl => ⟨List.mem_cons_self, (h.held ip hl).2⟩)
    (fun _ hv => ⟨h.synced ip hr hv, h.typed ip hr hv⟩)
    (fun ht hn => ⟨List.mem_cons_self, (h.orphan ip ht hn).2⟩)
  rw [h.ref, List.count_cons_self]

theorem ilock_spec (h : Good sb s refs lk) (hr : ip ∈ refs) (hl : ip ∉ lk)
    (ht : (s.dinode ip).type ≠ .none ∨ A .ilockNoType) : WpUpTo A (ilock ip) (fun _ t =>
      Good sb t refs (ip :: lk) ∧ SameDisk s t ∧ (s.dinode ip).type ≠ .none) s := by
  have hpos : 0 < (s.itable ip).ref := by
    rw [h.ref]
    exact List.count_pos_iff.mpr hr
  have hlk : ∀ i, i ≠ ip → (i ∈ ip :: lk ↔ i ∈ lk) := by
    intro i hi
    simp [hi]
  apply upTo_bind_get
  rw [if_neg (by omega)]
  apply upTo_bind
  apply upTo_bind_get
  rw [if_neg (by simp [h.locked, hl])]
  apply upTo_modify
  split
  · rename_i hv
    refine upTo_pure ⟨?_, sameDisk_setEntry _ _ _, h.typed ip hr hv⟩
    exact h.setEntry (fun _ _ => rfl) hlk (h.ref ip) (by simp) (fun _ => ⟨hr, hv⟩)
      (fun _ _ => ⟨h.synced ip hr hv, h.typed ip hr hv⟩) (fun _ _ => ⟨hr, hv⟩)
  · rename_i hv
    apply upTo_bind_modify
    split
    · rename_i hnone
      exact upTo_throw (ht.resolve_left (fun hne => hne hnone))
    · rename_i hsome
      have hset : ((s.setEntry ip { s.itable ip with locked := true }).setEntry ip
          { (s.setEntry ip { s.itable ip with locked := true }).itable ip with
            din := (s.setEntry ip { s.itable ip with locked := true }).dinode ip, valid := true }) =
          s.setEntry ip { s.itable ip with locked := true, din := s.dinode ip, valid := true } := by
        simp only [Fs.setEntry, update_self, update_idem]
      rw [hset]
      refine upTo_pure ⟨?_, sameDisk_setEntry _ _ _, hsome⟩
      exact h.setEntry (fun _ _ => rfl) hlk (h.ref ip) (by simp) (fun _ => ⟨hr, rfl⟩)
        (fun _ _ => ⟨rfl, hsome⟩) (fun _ _ => ⟨hr, rfl⟩)

theorem ilock_deadlock (h : Good sb s refs lk) (hr : ip ∈ refs) (hl : ip ∈ lk) (hA : A .deadlock)
    {Q : Unit → Fs → Prop} : WpUpTo A (ilock ip) Q s := by
  have href : 0 < (s.itable ip).ref := by
    rw [h.ref]
    exact List.count_pos_iff.mpr hr
  apply upTo_bind_get
  rw [if_neg (by omega)]
  apply upTo_bind
  apply upTo_bind_get
  rw [if_pos (by simp [h.locked, hl])]
  exact upTo_throw hA

theorem iunlock_spec (h : Good sb s refs (ip :: lk)) (hl : ip ∉ lk) : WpUpTo A (iunlock ip)
    (fun _ t => Good sb t refs lk ∧ SameDisk s t) s := by
  obtain ⟨hr, hv⟩ := h.held ip List.mem_cons_self
  have hpos : 0 < (s.itable ip).ref := by
    rw [h.ref]
    exact List.count_pos_iff.mpr hr
  apply upTo_bind_get
  rw [if_neg (by simp [h.locked]; omega)]
  apply upTo_modify
  refine ⟨?_, sameDisk_setEntry _ _ _⟩
  exact h.setEntry (fun _ _ => rfl) (fun i hi => by simp [hi]) (h.ref ip) (by simp [hl])
    (fun hin => absurd hin hl) (fun _ _ => ⟨h.synced ip hr hv, h.typed ip hr hv⟩)
    (fun _ _ => ⟨hr, hv⟩)

theorem slotAddr_cleared (h : ∀ k, k ≤ NDIRECT → d.addrs k = 0) (k : Nat) : slotAddr data d k = 0 := by
  unfold slotAddr
  split
  · exact h k ‹_›
  · rw [if_pos (h NDIRECT (Nat.le_refl _))]

theorem Blocks.setFree (h : Blocks sb bm data inos) (hc : ∀ k, k ≤ NDIRECT → (inos ip).addrs k = 0) :
    Blocks sb bm data (update inos ip { inos ip with type := .none }) := by
  refine h.setInode ?_ (fun ht => absurd rfl ht) fun ht => absurd rfl ht
  funext ⟨i, k⟩
  by_cases hi : i = ip
  · subst i
    rw [own_of_free (by rw [update_self])]
    simp only [own, slotAddr_cleared hc, ite_self]
  · simp only [own, update_of_ne hi]

theorem files_update {v : FileView} (h : view data d = v) : (fun i => view data (update f ip d i)) =
      update (fun i => view data (f i)) ip v := by
  funext i
  by_cases hi : i = ip
  · rw [hi, update_self, update_self, h]
  · rw [update_of_ne hi, update_of_ne hi]

theorem own_update_of_ne {p : Nat × Nat} (hp : p.1 ≠ ip) :
    own data (update f ip d) p = own data f p := by
  rw [own, own, update_of_ne hp]

theorem ifree_spec (h : Good sb s (ip :: refs) lk) (hr : ip ∉ refs) (hl : ip ∉ lk)
    (hv : (s.itable ip).valid = true) : WpUpTo A (ifree ip) (fun _ t =>
      ∃ d, d.type = .none ∧ short d.nlink = d.nlink ∧
        Blocks sb t.bitmap t.data (update s.dinode ip d) ∧
        t = { s with
          bitmap := t.bitmap
          dinode := update s.dinode ip d
          itable := update s.itable ip ⟨1, false, false, d⟩ } ∧
        free sb.size s.bitmap ≤ free sb.size t.bitmap) s := by
  have hsync := h.synced ip List.mem_cons_self hv
  apply upTo_bind
  apply upTo_bind_get
  rw [if_neg (by simp [h.locked, hl])]
  apply upTo_modify
  have hd : (s.setEntry ip { s.itable ip with locked := true }).din ip = s.dinode ip := by
    rw [← hsync]
    simp only [Fs.setEntry, din, update_self]
  have hinos : (s.setEntry ip { s.itable ip with locked := true }).inos ip = s.dinode := by
    rw [inos, hd]
    exact update_eq_self ip s.dinode
  refine (itrunc_spec (by rw [hinos]; exact h.blocks)
    (by rw [hd]; exact h.typed ip List.mem_cons_self hv)).bind fun _ t ht => ?_
  apply upTo_bind_modify
  apply upTo_bind_modify
  apply upTo_bind_modify
  apply upTo_modify
  refine ⟨{ t.din ip with type := .none }, rfl, ?_, ?_, ?_, ht.room⟩
  · have hn := ht.same.nlink
    rw [hd] at hn
    rw [hn]
    exact h.short ip
  · have hclear : ∀ k, k ≤ NDIRECT → (t.dinode ip).addrs k = 0 := by
      rw [ht.dinode, update_self]
      exact ht.cleared
    have hb := ht.blocks.setFree hclear
    rw [ht.dinode, update_idem, update_self] at hb
    exact hb
  · have href : (s.itable ip).ref = 1 := by
      rw [h.ref, List.count_cons_self, List.count_eq_zero_of_not_mem hr]
    have hdata : t.data = s.data := ht.data
    have htab : t.itable = update s.itable ip ⟨1, true, true, t.din ip⟩ := by
      rw [ht.itable]
      simp only [Fs.setEntry, update_self, update_idem, href, hv]
    have hdin : t.dinode = update s.dinode ip (t.din ip) := ht.dinode
    generalize t.din ip = d at htab hdin
    obtain ⟨bm, da, di, it⟩ := t
    subst hdata htab hdin
    simp only [Fs.setEntry, setDin, setDinode, din, update_self, update_idem]

theorem Good.freed (h : Good sb s (ip :: refs) lk) (hr : ip ∉ refs) (hl : ip ∉ lk)
    (hnone : d.type = .none) (hshort : Xv6.short d.nlink = d.nlink)
    (hblocks : Blocks sb bm s.data (update s.dinode ip d)) (href : m.ref = 0)
    (hlocked : m.locked = false) :
    Good sb { s with
      bitmap := bm
      dinode := update s.dinode ip d
      itable := update s.itable ip m } refs lk := by
  have hmem : ∀ i, i ≠ ip → i ∈ ip :: refs → i ∈ refs := by
    intro i hi hin
    exact (List.mem_cons.mp hin).resolve_left hi
  have hne : ∀ i, i ∈ refs → i ≠ ip := by
    rintro i hin rfl
    exact hr hin
  refine ⟨hblocks, fun i => ?_, fun i => ?_, fun i hin => ?_, fun i hin hv => ?_,
    fun i hin hv => ?_, fun i ht hn => ?_, fun i ht => ?_, fun i => ?_⟩
  · by_cases hi : i = ip
    · simp only [hi, update_self, href, List.count_eq_zero_of_not_mem hr]
    · simp only [update_of_ne hi, h.ref, count_cons_of_ne hi]
  · by_cases hi : i = ip
    · simp only [hi, update_self, hlocked, hl, decide_false]
    · simp only [update_of_ne hi, h.locked]
  · have hi : i ≠ ip := by
      rintro rfl
      exact hl hin
    simp only [update_of_ne hi]
    exact ⟨hmem i hi (h.held i hin).1, (h.held i hin).2⟩
  · simp only [din, update_of_ne (hne i hin)] at hv ⊢
    exact h.synced i (List.mem_cons_of_mem _ hin) hv
  · simp only [update_of_ne (hne i hin)] at hv ⊢
    exact h.typed i (List.mem_cons_of_mem _ hin) hv
  · by_cases hi : i = ip
    · simp [hi, hnone] at ht
    · simp only [update_of_ne hi] at ht hn ⊢
      exact ⟨hmem i hi (h.orphan i ht hn).1, (h.orphan i ht hn).2⟩
  · by_cases hi : i = ip
    · simp [hi, hnone] at ht
    · simp only [update_of_ne hi] at ht
      exact h.inum i ht
  · by_cases hi : i = ip
    · simp only [hi, update_self, hshort]
    · simp only [update_of_ne hi]
      exact h.short i

theorem iput_keep (h : Good sb s (ip :: refs) lk)
    (hk : (s.dinode ip).type ≠ .none → (s.dinode ip).nlink = 0 → ip ∈ refs)
    (hl : ip ∈ lk → ip ∈ refs) : WpUpTo A (iput ip)
      (fun _ t => Good sb t refs lk ∧ SameDisk s t) s := by
  have hcount : (s.itable ip).ref = refs.count ip + 1 := by rw [h.ref, List.count_cons_self]
  apply upTo_bind_get
  rw [if_neg]
  · apply upTo_modify
    refine ⟨?_, sameDisk_setEntry _ _ _⟩
    refine h.setEntry (fun i hi => (count_cons_of_ne hi).symm) (fun _ _ => Iff.rfl) ?_ (h.locked ip)
      (fun hin => ⟨hl hin, (h.held ip hin).2⟩) ?_ ?_
    · simp only [hcount, Nat.add_sub_cancel]
    · exact fun _ hv => ⟨h.synced ip List.mem_cons_self hv, h.typed ip List.mem_cons_self hv⟩
    · exact fun ht hn => ⟨hk ht hn, (h.orphan ip ht hn).2⟩
  · rintro ⟨href, hv, hn⟩
    have hin := hk (h.typed ip List.mem_cons_self hv) (by rw [← h.synced ip List.mem_cons_self hv]; exact hn)
    have := List.count_pos_iff.mpr hin
    omega

theorem iput_spec (h : Good sb s (ip :: refs) lk) (hl : ip ∉ lk) : WpUpTo A (iput ip)
    (fun _ t => Good sb t refs lk ∧ free sb.size s.bitmap ≤ free sb.size t.bitmap ∧
      (SameDisk s t ∧ ((s.dinode ip).type ≠ .none → (s.dinode ip).nlink = 0 → ip ∈ refs) ∨
        (s.dinode ip).type ≠ .none ∧ (s.dinode ip).nlink = 0 ∧ ip ∉ refs ∧
          t.files = update s.files ip FileView.free ∧
          ∀ p, p.1 ≠ ip → t.slots p = s.slots p)) s := by
  by_cases hk : (s.dinode ip).type ≠ .none → (s.dinode ip).nlink = 0 → ip ∈ refs
  · refine (iput_keep h hk (fun hin => absurd hin hl)).mono ?_
    rintro _ t ⟨hg, hd⟩
    exact ⟨hg, Nat.le_of_eq (by rw [hd.bitmap]), .inl ⟨hd, hk⟩⟩
  · push Not at hk
    obtain ⟨ht, hn, hr⟩ := hk
    have hv := (h.orphan ip ht hn).2
    have href : (s.itable ip).ref = 1 := by
      rw [h.ref, List.count_cons_self, List.count_eq_zero_of_not_mem hr]
    have hn' : (s.itable ip).din.nlink = 0 := by
      rw [← hn, ← h.synced ip List.mem_cons_self hv]
      rfl
    apply upTo_bind_get
    rw [if_pos ⟨href, hv, hn'⟩]
    refine (ifree_spec h hr hl hv).bind ?_
    rintro _ t ⟨d, hnone, hshort, hblocks, hstate, hroom⟩
    have hdata : t.data = s.data := by rw [hstate]
    have hdin : t.dinode = update s.dinode ip d := by rw [hstate]
    apply upTo_modify
    refine ⟨?_, hroom, .inr ⟨ht, hn, hr, ?_, fun p hp => ?_⟩⟩
    · rw [hstate]
      simp only [Fs.setEntry, update_self, update_idem]
      exact h.freed hr hl hnone hshort (hdata ▸ hblocks) rfl rfl
    · have hview : view t.data d = FileView.free := by rw [view, if_pos hnone]
      change (fun i => view t.data (t.dinode i)) = _
      rw [hdin, files_update hview, hdata]
      rfl
    · change own t.data t.dinode p = _
      rw [hdata, hdin]
      exact own_update_of_ne hp

theorem Good.setInode (h : Good sb s refs lk) (hl : ip ∈ lk) (hb : Blocks sb t.bitmap t.data t.dinode)
    (hdin : t.dinode = update s.dinode ip d)
    (htab : t.itable = update s.itable ip { s.itable ip with din := d }) (ht : d.type ≠ .none)
    (hs : Xv6.short d.nlink = d.nlink) : Good sb t refs lk := by
  obtain ⟨hr, hv⟩ := h.held ip hl
  have hself : t.itable ip = { s.itable ip with din := d } := by rw [htab, update_self]
  have hother : ∀ i, i ≠ ip → t.itable i = s.itable i := by
    intro i hi
    rw [htab, update_of_ne hi]
  have hdself : t.dinode ip = d := by rw [hdin, update_self]
  have hdother : ∀ i, i ≠ ip → t.dinode i = s.dinode i := by
    intro i hi
    rw [hdin, update_of_ne hi]
  refine ⟨hb, fun i => ?_, fun i => ?_, fun i hin => ?_, fun i hin hvi => ?_,
    fun i hin hvi => ?_, fun i hti hn => ?_, fun i hti => ?_, fun i => ?_⟩
  all_goals by_cases hi : i = ip
  · rw [hi, hself]
    exact h.ref ip
  · rw [hother i hi]
    exact h.ref i
  · rw [hi, hself]
    exact h.locked ip
  · rw [hother i hi]
    exact h.locked i
  · rw [hi, hself]
    exact ⟨hr, hv⟩
  · rw [hother i hi]
    exact h.held i hin
  · rw [hi, din, hself, hdself]
  · rw [hother i hi] at hvi
    rw [din, hother i hi, hdother i hi]
    exact h.synced i hin hvi
  · rw [hi, hdself]
    exact ht
  · rw [hother i hi] at hvi
    rw [hdother i hi]
    exact h.typed i hin hvi
  · rw [hi, hself]
    exact ⟨hr, hv⟩
  · rw [hdother i hi] at hti hn
    rw [hother i hi]
    exact h.orphan i hti hn
  · rw [hi]
    exact h.inum ip (h.locked_din hl ▸ h.locked_typed hl)
  · rw [hdother i hi] at hti
    exact h.inum i hti
  · rw [hi, hdself, hs]
  · rw [hdother i hi]
    exact h.short i

theorem Good.setFields (h : Good sb s refs lk) (hl : ip ∈ lk) (ht : d.type = (s.din ip).type)
    (hsize : d.size = (s.din ip).size) (haddrs : d.addrs = (s.din ip).addrs)
    (hs : Xv6.short d.nlink = d.nlink) :
    Good sb ((s.setDin ip d).setDinode ip d) refs lk ∧
      ((s.setDin ip d).setDinode ip d).files = update s.files ip
        { s.files ip with major := d.major, minor := d.minor, nlink := d.nlink } := by
  have hty := h.locked_typed hl
  rw [h.locked_din hl] at ht hsize haddrs hty
  have hblock : ∀ bn, fileBlock s.data d bn = fileBlock s.data (s.dinode ip) bn := by
    intro bn
    rw [fileBlock, fileBlock, slotAddr, slotAddr, haddrs]
  refine ⟨h.setInode hl (d := d) ?_ rfl rfl (by rwa [ht]) hs, ?_⟩
  · refine h.blocks.setInode (own_setInode (by rw [ht]) (fun k _ => ?_)) ?_ ?_
    · rw [slotAddr, slotAddr, haddrs]
    · intro hne bn hbn
      rw [hsize] at hbn
      rw [hblock]
      exact h.blocks.full ip hty bn hbn
    · intro _
      rw [hsize]
      exact h.blocks.fits ip hty
  · refine files_update ?_
    change view s.data d = _
    rw [files, view, view, if_neg (by rwa [ht]), if_neg hty, ht, hsize]
    simp only [hblock]

theorem addLink_spec (h : Good sb s refs lk) (hl : ip ∈ lk) (d : Int) :
    WpUpTo A (addLink ip d) (fun _ t => Good sb t refs lk ∧ t.bitmap = s.bitmap ∧
      t.files = update s.files ip
        { s.files ip with nlink := Xv6.short ((s.files ip).nlink + d) }) s := by
  have hd := h.locked_din hl
  have hty := h.locked_typed hl
  rw [hd] at hty
  apply upTo_bind_modify
  apply upTo_modify
  rw [din_setDin]
  obtain ⟨hg, hf⟩ := h.setFields hl (d := { s.din ip with nlink := Xv6.short ((s.din ip).nlink + d) })
    rfl rfl rfl (Int.bmod_bmod ..)
  refine ⟨hg, rfl, ?_⟩
  rw [hf]
  simp only [hd, files, view, if_neg hty]

theorem Good.written (h : Good sb s refs lk) (hl : ip ∈ lk) {off m w : Nat} {f : Nat → UInt8}
    (hw : Written sb ip s t off m w f) : Good sb t refs lk ∧
      t.files = update s.files ip ((s.files ip).write off m w f) := by
  have hd := h.locked_din hl
  refine ⟨h.setInode hl hw.blocks hw.dinode hw.itable ?_ ?_, ?_⟩
  · rw [hw.same.type]
    exact h.locked_typed hl
  · rw [hw.same.nlink, hd]
    exact h.short ip
  · funext i
    by_cases hi : i = ip
    · rw [hi, update_self, files, files, ← hd, ← hw.self, hw.dinode, update_self]
    · rw [update_of_ne hi]
      exact hw.others i hi

structure Taken (sb : Superblock) (s : Fs) (refs lk : List Nat) (type : FileType) (ip : Nat)
    (t : Fs) : Prop where
  unused : ip ∉ refs
  free : (s.files ip).type = .none
  pos : 0 < ip
  lt : ip < sb.ninodes
  state : t = { s with
    dinode := update s.dinode ip { Dinode.zero with type := type }
    itable := update s.itable ip { s.itable ip with ref := 1, valid := false } }

theorem ialloc_spec (h : Good sb s refs lk) (hrefs : ∀ i ∈ refs, (s.files i).type ≠ .none)
    (hA : Room A refs.length) (type : FileType) : WpUpTo A (ialloc sb type) (fun r t =>
      r = none ∧ t = s ∨ ∃ ip, r = some ip ∧ Taken sb s refs lk type ip t) s := by
  apply upTo_bind_get
  cases hf : (List.range' 1 (sb.ninodes - 1)).find? (fun i => (s.dinode i).type = .none) with
  | none => exact upTo_pure (.inl ⟨rfl, rfl⟩)
  | some ip =>
    have hnone : (s.dinode ip).type = .none := by simpa using List.find?_some hf
    have hin := List.mem_range'_1.mp (List.mem_of_find?_eq_some hf)
    have hnot : ip ∉ refs := by
      intro hr
      exact hrefs ip hr (by rw [files_type, hnone])
    have hzero : (s.itable ip).ref = 0 := by rw [h.ref, List.count_eq_zero_of_not_mem hnot]
    apply upTo_bind_modify
    apply upTo_bind
    apply upTo_bind_get
    rw [if_neg (by simp only [setDinode]; omega)]
    split
    · rename_i hfull
      exact upTo_throw (h.noInodes (hA.fits ip) hnot hfull)
    · apply upTo_bind_modify
      exact upTo_pure (.inr ⟨ip, rfl, hnot, by rw [files_type, hnone], by omega, by omega, rfl⟩)

theorem Blocks.setNew (h : Blocks sb bm data inos) (hfree : (inos ip).type = .none)
    (haddrs : ∀ k, d.addrs k = 0) (hsize : d.size = 0) : Blocks sb bm data (update inos ip d) := by
  refine h.setInode ?_ (fun _ bn hbn => ?_) fun _ => ?_
  · funext ⟨i, k⟩
    by_cases hi : i = ip
    · subst i
      rw [own_of_free hfree]
      simp only [own, update_self, slotAddr_cleared (fun k _ => haddrs k), ite_self]
    · simp only [own, update_of_ne hi]
  · omega
  · omega

theorem initInode_spec (h : Good sb s refs lk) {type : FileType}
    (hty : type ≠ .none ∨ A .ilockNoType)
    (ht : Taken sb s refs lk type ip t) (major minor : Int) :
    WpUpTo A (initInode ip major minor) (fun _ u => Good sb u (ip :: refs) (ip :: lk) ∧
      type ≠ .none ∧ (∀ p, p.1 ≠ ip → u.slots p = s.slots p) ∧ u.files = update s.files ip
        ⟨type, Xv6.short major, Xv6.short minor, 1, 0, fun _ => 0⟩) t := by
  have hfree : (s.dinode ip).type = .none := by rw [← files_type, ht.free]
  have hlk : ip ∉ lk := fun hl => ht.unused (h.held ip hl).1
  obtain ⟨hnot, -, hpos, hlt, rfl⟩ := ht
  apply upTo_bind
  apply upTo_bind_get
  rw [if_neg (by simp only [update_self]; omega)]
  apply upTo_bind
  apply upTo_bind_get
  rw [if_neg (by simp [h.locked, hlk])]
  apply upTo_modify
  rw [if_neg (by simp only [update_self]; decide)]
  apply upTo_bind_modify
  simp only [update_self]
  split
  · rename_i hnone
    exact upTo_throw (hty.resolve_left (not_not.mpr hnone))
  rename_i hty
  apply upTo_pure
  apply upTo_bind_modify
  apply upTo_modify
  simp only [setDin, setEntry, setDinode, din, update_self, update_idem]
  set d : Dinode := { Dinode.zero with
    type := type, major := Xv6.short major, minor := Xv6.short minor, nlink := 1 } with hd
  have hdt : d.type = type := rfl
  refine ⟨⟨?_, fun i => ?_, fun i => ?_, fun i hin => ?_, fun i hin hv => ?_,
    fun i hin hv => ?_, fun i hti hn => ?_, fun i hti => ?_, fun i => ?_⟩,
    hty, fun p hp => own_update_of_ne hp, ?_⟩
  · exact h.blocks.setNew hfree (fun _ => rfl) rfl
  all_goals try by_cases hi : i = ip
  · simp only [hi, update_self, List.count_cons_self, List.count_eq_zero_of_not_mem hnot]
  · simp only [update_of_ne hi, h.ref, count_cons_of_ne hi]
  · simp [hi]
  · simp [h.locked, hi]
  · simp [hi]
  · simp only [update_of_ne hi]
    have hin := (List.mem_cons.mp hin).resolve_left hi
    exact ⟨List.mem_cons_of_mem _ (h.held i hin).1, (h.held i hin).2⟩
  · simp only [hi, din, update_self]
  · simp only [din, update_of_ne hi] at hv ⊢
    exact h.synced i ((List.mem_cons.mp hin).resolve_left hi) hv
  · simp only [hi, update_self, hdt]
    exact hty
  · simp only [update_of_ne hi] at hv ⊢
    exact h.typed i ((List.mem_cons.mp hin).resolve_left hi) hv
  · simp [hi, hd] at hn
  · simp only [update_of_ne hi] at hti hn ⊢
    exact ⟨List.mem_cons_of_mem _ (h.orphan i hti hn).1, (h.orphan i hti hn).2⟩
  · rw [hi]
    exact ⟨hpos, hlt⟩
  · simp only [update_of_ne hi] at hti
    exact h.inum i hti
  · simp only [hi, update_self, hd]
    decide
  · simp only [update_of_ne hi]
    exact h.short i
  · refine files_update ?_
    rw [view, if_neg hty]
    simp [hd, Dinode.zero]

end Fs

end Xv6
