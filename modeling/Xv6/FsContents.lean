import Xv6.FsBmap

/-! Reading and writing the contents of an inode whose lock is held. -/

namespace Xv6

open BlockOwner Function StateProg

namespace FileView

def slice (v : FileView) (off n : Nat) : List UInt8 := (List.range n).map fun k => v.byte (off + k)

theorem slice_add (v : FileView) (off m n : Nat) :
    v.slice off (m + n) = v.slice off m ++ v.slice (off + m) n := by
  simp only [slice, List.range_add, List.map_append, List.map_map]
  congr 1
  apply List.map_congr_left
  intro k _
  simp only [Function.comp_apply, Nat.add_assoc]

/-- `m` bytes written at `off`; `w` were stored. They differ when the source could not be
read to its end. -/
def write (v : FileView) (off m w : Nat) (f : Nat → UInt8) : FileView :=
  { v with
    size := max v.size (off + m)
    byte := fun o => if off ≤ o ∧ o < off + w ∧ o < max v.size (off + m) then f (o - off)
      else v.byte o }

end FileView

namespace Fs

variable {sb : Superblock} {A : FsPanic → Prop} {s t u : Fs} {ip off n m r w : Nat} {f : Nat → UInt8}
  {data : Nat → Buffer} {d : Dinode}

def raw (data : Nat → Buffer) (d : Dinode) (off : Nat) : UInt8 :=
  data (fileBlock data d (off / BSIZE)) (off % BSIZE)

theorem view_byte (ht : d.type ≠ .none) (h : off < d.size) :
    (view data d).byte off = raw data d off := by
  rw [view, if_neg ht]
  exact if_pos h

theorem read_eq_slice (ht : d.type ≠ .none) (hm : m ≤ BSIZE - off % BSIZE) (hsize : off + m ≤ d.size) :
    (data (fileBlock data d (off / BSIZE))).read (off % BSIZE) m = (view data d).slice off m := by
  apply List.map_congr_left
  intro k hk
  have hk := List.mem_range.mp hk
  have hdiv : (off + k) / BSIZE = off / BSIZE := by
    simp only [BSIZE] at hm ⊢
    omega
  have hmod : (off + k) % BSIZE = off % BSIZE + k := by
    simp only [BSIZE] at hm ⊢
    omega
  rw [view_byte ht (by omega), raw, hdiv, hmod]

theorem bmap_kept (h : Blocks sb s.bitmap s.data (s.inos ip)) (ht : (s.din ip).type ≠ .none)
    (hoff : off < (s.din ip).size) : WpUpTo A (bmap sb ip (off / BSIZE))
      (fun r t => t = s ∧ r ≠ 0 ∧ r = fileBlock s.data (s.din ip) (off / BSIZE)) s := by
  have hd := inos_self s ip
  have hin : off / BSIZE * BSIZE < (s.inos ip ip).size := by
    rw [hd]
    exact Nat.lt_of_le_of_lt (Nat.div_mul_le_self off BSIZE) hoff
  have hne := h.full ip (by rwa [hd]) _ hin
  rw [hd] at hne
  refine (bmap_spec h ht (h.block_lt (by rwa [hd]) hin)).mono fun r t hr => ?_
  obtain ⟨rfl, hr⟩ := hr.kept hne
  exact ⟨rfl, hr ▸ hne, hr⟩

theorem readLoop_spec (h : Blocks sb s.bitmap s.data (s.inos ip)) (ht : (s.din ip).type ≠ .none)
    {room : Nat} : ∀ fuel tot off out, tot ≤ n → off + (n - tot) ≤ (s.din ip).size →
      n - tot < fuel → WpUpTo A (readLoop sb ip room n fuel tot off out) (fun r t => t = s ∧
        (r = ((n : Int), out ++ (view s.data (s.din ip)).slice off (n - tot)) ∧
            (tot ≤ room → n ≤ room) ∨
          r.1 = -1 ∧ room < n ∧ (out.length = tot → tot ≤ room → r.2.length = room))) s := by
  intro fuel
  induction fuel with
  | zero =>
    intro tot off out _ _ hfuel
    omega
  | succ fuel ih =>
    intro tot off out htot hsize hfuel
    unfold readLoop
    by_cases hlt : tot < n
    · rw [if_pos hlt]
      refine (bmap_kept h ht (by omega)).bind ?_
      rintro r _ ⟨rfl, hr, rfl⟩
      rw [if_neg hr]
      apply upTo_bind_get
      dsimp only
      have hm := Nat.min_le_left (n - tot) (BSIZE - off % BSIZE)
      have hm' := Nat.min_le_right (n - tot) (BSIZE - off % BSIZE)
      have hpos : 0 < min (n - tot) (BSIZE - off % BSIZE) := by
        have := Nat.mod_lt off (show 0 < BSIZE by decide)
        omega
      generalize min (n - tot) (BSIZE - off % BSIZE) = m at hm hm' hpos
      rw [read_eq_slice ht hm' (by omega)]
      split
      · refine upTo_pure ⟨rfl, .inr ⟨rfl, by omega, fun hlen hle => ?_⟩⟩
        simp only [List.length_append, List.length_take, FileView.slice, List.length_map,
          List.length_range]
        omega
      · rename_i hroom
        refine (ih (tot + m) (off + m) _ (by omega) (by omega) (by omega)).mono ?_
        rintro r t ⟨rfl, hr⟩
        refine ⟨rfl, ?_⟩
        rw [List.append_assoc, ← FileView.slice_add, show m + (n - (tot + m)) = n - tot by omega]
          at hr
        refine hr.imp (fun ⟨h1, h2⟩ => ⟨h1, fun _ => h2 (by omega)⟩)
          (fun ⟨h1, h2, h3⟩ => ⟨h1, h2, fun hlen _ => h3 ?_ (by omega)⟩)
        simp only [List.length_append, FileView.slice, List.length_map, List.length_range, hlen]
    · rw [if_neg hlt]
      obtain rfl : tot = n := by omega
      refine upTo_pure ⟨rfl, .inl ⟨?_, id⟩⟩
      simp [FileView.slice]

theorem readi_inside (h : Blocks sb s.bitmap s.data (s.inos ip)) (ht : (s.din ip).type ≠ .none)
    (hsize : off + n ≤ (s.din ip).size) : WpUpTo A (readi sb ip n off n)
      (fun r t => t = s ∧ r = ((n : Int), (view s.data (s.din ip)).slice off n)) s := by
  have hfit := h.fits ip (by rwa [inos_self])
  rw [inos_self] at hfit
  apply upTo_bind_get
  rw [if_neg (by simp only [MAXFILE, NDIRECT, NINDIRECT, BSIZE] at hfit; omega),
    if_neg (by omega)]
  refine (readLoop_spec h ht _ _ _ _ (Nat.zero_le _) (by omega) (by omega)).mono ?_
  rintro r t ⟨rfl, hr | hr⟩
  · exact ⟨rfl, hr.1⟩
  · exact absurd hr.2.1 (Nat.lt_irrefl n)

/-- `w` bytes `f` were stored at `off` in the blocks of `ip`; its size has not changed
yet. -/
structure Wrote (sb : Superblock) (ip : Nat) (s t : Fs) (off w : Nat) (f : Nat → UInt8) :
    Prop where
  blocks : Blocks sb t.bitmap t.data (t.inos ip)
  dinode : t.dinode = s.dinode
  itable : t.itable = update s.itable ip { s.itable ip with din := t.din ip }
  same : SameMeta (t.din ip) (s.din ip)
  others : ∀ i, i ≠ ip → view t.data (s.dinode i) = view s.data (s.dinode i)
  has : ∀ bn, bn < MAXFILE → fileBlock s.data (s.din ip) bn ≠ 0 →
    fileBlock t.data (t.din ip) bn ≠ 0
  new : ∀ o, off ≤ o → o < off + w → fileBlock t.data (t.din ip) (o / BSIZE) ≠ 0 ∧
    raw t.data (t.din ip) o = f (o - off)
  old : ∀ o, o / BSIZE < MAXFILE → fileBlock s.data (s.din ip) (o / BSIZE) ≠ 0 →
    ¬ (off ≤ o ∧ o < off + w) → raw t.data (t.din ip) o = raw s.data (s.din ip) o
  slots : Attached ip (own s.data (s.inos ip)) (own t.data (t.inos ip))

theorem Wrote.none {bn : Nat} (h : Mapped sb ip bn s r t) (ht : (s.din ip).type ≠ .none)
    (hs : Blocks sb s.bitmap s.data (s.inos ip)) (off : Nat) (f : Nat → UInt8) :
    Wrote sb ip s t off 0 f where
  blocks := h.blocks
  dinode := h.grew.dinode
  itable := h.grew.itable
  same := h.grew.same
  others i hi := by
    have hv := hs.view_eq h.grew.keeps i
    rwa [inos, inos, update_of_ne hi, update_of_ne hi, h.grew.dinode] at hv
  has bn hbn hne := by
    have hk := h.grew.keeps.block ip bn
    rw [inos_self, inos_self] at hk
    rw [hk ht hbn hne]
    exact hne
  new o h1 h2 := by omega
  old o hbn hne _ := by
    have hk := h.grew.keeps.block ip (o / BSIZE)
    have hb := h.grew.keeps.bytes ip (o / BSIZE)
    rw [inos_self] at hk hb
    rw [inos_self] at hk
    rw [raw, hk ht hbn hne, hb ht hbn hne, raw]
  slots := h.grew.keeps.slots

theorem Wrote.refl (h : Blocks sb s.bitmap s.data (s.inos ip)) (off : Nat) (f : Nat → UInt8) :
    Wrote sb ip s s off 0 f :=
  ⟨h, rfl, (update_eq_self ip s.itable).symm, SameMeta.refl _, fun _ _ => rfl,
    fun _ _ hne => hne, fun _ h1 h2 => by omega, fun _ _ _ _ => rfl, .refl _ _⟩

theorem Wrote.trans {w' : Nat} (h : Wrote sb ip s t off w f)
    (h' : Wrote sb ip t u (off + w) w' (fun k => f (w + k))) (hfit : off + w ≤ MAXFILE * BSIZE) :
    Wrote sb ip s u off (w + w') f where
  blocks := h'.blocks
  dinode := h'.dinode.trans h.dinode
  itable := by rw [h'.itable, h.itable, update_idem, update_self]
  same := h'.same.trans h.same
  others i hi := by
    have h2 := h'.others i hi
    rw [h.dinode] at h2
    rw [h2, h.others i hi]
  has bn hbn hne := h'.has bn hbn (h.has bn hbn hne)
  new o h1 h2 := by
    by_cases ho : o < off + w
    · obtain ⟨hne, hraw⟩ := h.new o h1 ho
      have hbn : o / BSIZE < MAXFILE := by
        simp only [MAXFILE, NDIRECT, NINDIRECT, BSIZE] at hfit ⊢
        omega
      exact ⟨h'.has _ hbn hne, (h'.old o hbn hne (by omega)).trans hraw⟩
    · obtain ⟨hne, hraw⟩ := h'.new o (by omega) (by omega)
      refine ⟨hne, hraw.trans ?_⟩
      rw [show w + (o - (off + w)) = o - off by omega]
  old o hbn hne ho := by
    rw [h'.old o hbn (h.has _ hbn hne) (by omega), h.old o hbn hne (by omega)]
  slots := h.slots.trans h'.slots

theorem Wrote.chunk (hs : Blocks sb s.bitmap s.data (s.inos ip)) (ht : (s.din ip).type ≠ .none)
    (hbn : off / BSIZE < MAXFILE) (h : Mapped sb ip (off / BSIZE) s r t) (hr : r ≠ 0)
    {bytes : List UInt8} (hm : off % BSIZE + bytes.length ≤ BSIZE) :
    Wrote sb ip s (t.setData r ((t.data r).write (off % BSIZE) bytes)) off bytes.length
      (fun k => bytes.getD k 0) := by
  obtain rfl : r = fileBlock t.data (t.din ip) (off / BSIZE) := by
    rcases h.result with h0 | h0
    · exact absurd h0.1 hr
    · exact h0.2
  have htt : (t.inos ip ip).type ≠ .none := by
    rw [inos_self, h.grew.same.type]
    exact ht
  have hself := inos_self t ip
  have hne : fileBlock t.data (t.inos ip ip) (off / BSIZE) ≠ 0 := by rwa [hself]
  have hmap := Wrote.none h ht hs off fun k => bytes.getD k 0
  generalize hbuf : (t.data (fileBlock t.data (t.din ip) (off / BSIZE))).write (off % BSIZE) bytes
    = buf
  have hslot : ∀ bn, fileBlock (t.setData (fileBlock t.data (t.din ip) (off / BSIZE)) buf).data
      (t.din ip) bn = fileBlock t.data (t.din ip) bn := by
    intro bn
    have hw := h.blocks.fileBlock_write htt hbn hne buf htt (slotOf bn)
    rwa [hself] at hw
  have hin : ∀ o, o / BSIZE = off / BSIZE →
      raw (t.setData (fileBlock t.data (t.din ip) (off / BSIZE)) buf).data (t.din ip) o =
        buf (o % BSIZE) := by
    intro o ho
    rw [raw, hslot, ho]
    simp only [setData, update_self]
  have hout : ∀ o, o / BSIZE < MAXFILE → fileBlock t.data (t.din ip) (o / BSIZE) ≠ 0 →
      o / BSIZE ≠ off / BSIZE →
      raw (t.setData (fileBlock t.data (t.din ip) (off / BSIZE)) buf).data (t.din ip) o =
        raw t.data (t.din ip) o := by
    intro o hlt hno ho
    have hdiff : fileBlock t.data (t.din ip) (o / BSIZE) ≠ fileBlock t.data (t.din ip) (off / BSIZE) := by
      intro he
      have hinj := h.blocks.fileBlock_injective htt htt hlt hbn (by rwa [hself]) (by rwa [hself])
      exact ho hinj.2
    rw [raw, hslot, raw]
    simp only [setData, update_of_ne hdiff]
  refine ⟨?_, hmap.dinode, hmap.itable, hmap.same, ?_, ?_, ?_, ?_, ?_⟩
  · have hb := h.blocks.write htt hbn hne buf
    rwa [hself] at hb
  · intro i hi
    rw [← hmap.others i hi]
    have hti : t.inos ip i = s.dinode i := by rw [inos, update_of_ne hi, hmap.dinode]
    by_cases hfree : (s.dinode i).type = .none
    · rw [view, view, if_pos hfree, if_pos hfree]
    · refine view_congr (SameMeta.refl _) fun bn hbn' => ?_
      rw [← hti] at hfree hbn' ⊢
      have hlt := h.blocks.block_lt hfree hbn'
      have hdiff : fileBlock t.data (t.inos ip i) bn ≠ fileBlock t.data (t.din ip) (off / BSIZE) := by
        intro he
        rw [← hself] at he
        exact hi (h.blocks.fileBlock_injective hfree htt hlt hbn
          (h.blocks.full i hfree bn hbn') he).1
      have hw : fileBlock (t.setData (fileBlock t.data (t.din ip) (off / BSIZE)) buf).data
          (t.inos ip i) bn = fileBlock t.data (t.inos ip i) bn := by
        have hw := h.blocks.fileBlock_write htt hbn hne buf hfree (slotOf bn)
        rwa [hself] at hw
      rw [hw]
      exact update_of_ne hdiff _ _
  · intro bn hlt hno
    change fileBlock _ (t.din ip) bn ≠ 0
    rw [hslot]
    exact hmap.has bn hlt hno
  · intro o h1 h2
    have hdiv : o / BSIZE = off / BSIZE := by
      simp only [BSIZE] at hm ⊢
      omega
    have hmod : o % BSIZE = off % BSIZE + (o - off) := by
      simp only [BSIZE] at hm ⊢
      omega
    change fileBlock _ (t.din ip) (o / BSIZE) ≠ 0 ∧ raw _ (t.din ip) o = _
    rw [hslot, hin o hdiv, hdiv, ← hbuf, hmod]
    refine ⟨hr, ?_⟩
    rw [Buffer.write, if_pos (by omega), Nat.add_sub_cancel_left]
  · intro o hlt hno ho
    change raw _ (t.din ip) o = _
    by_cases hdiv : o / BSIZE = off / BSIZE
    · rw [hin o hdiv, ← hmap.old o hlt hno (by omega), raw, hdiv, ← hbuf, Buffer.write, if_neg]
      simp only [BSIZE] at hm hdiv ⊢
      omega
    · rw [hout o hlt (hmap.has _ hlt hno) hdiv, hmap.old o hlt hno (by omega)]
  · have hown := h.blocks.own_write htt hbn hne buf
    rw [hself] at hown
    exact hown.symm ▸ hmap.slots

theorem Wrote.congr {g : Nat → UInt8} (h : Wrote sb ip s t off w f) (hfg : ∀ k, k < w → f k = g k) :
    Wrote sb ip s t off w g :=
  { h with new := fun o h1 h2 => ⟨(h.new o h1 h2).1, (h.new o h1 h2).2.trans (hfg _ (by omega))⟩ }

structure Stored (sb : Superblock) (ip : Nat) (src : List UInt8) (n tot off : Nat) (s : Fs)
    (r : Nat) (t : Fs) : Prop where
  lo : tot ≤ r
  hi : r ≤ n
  wrote : ∃ w, r - tot ≤ w ∧ w ≤ n - tot ∧ (n ≤ src.length → w = r - tot) ∧
    Wrote sb ip s t off w fun k => src.getD (tot + k) 0
  full : r < n → n ≤ src.length → free sb.size t.bitmap = 0 ∧
    fileBlock s.data (s.din ip) ((off + (r - tot)) / BSIZE) = 0 ∧
    (r = tot ∨ (off + (r - tot)) % BSIZE = 0)
  kept : (∀ o, off ≤ o → o < off + (n - tot) → fileBlock s.data (s.din ip) (o / BSIZE) ≠ 0) →
    t.bitmap = s.bitmap
  room : free sb.size s.bitmap ≤
    free sb.size t.bitmap + 2 * ((off % BSIZE + (n - tot) + (BSIZE - 1)) / BSIZE)

theorem getD_take_drop (src : List UInt8) {tot k : Nat} (hk : k < ((src.drop tot).take m).length) :
    ((src.drop tot).take m).getD k 0 = src.getD (tot + k) 0 := by
  rw [List.length_take, List.length_drop] at hk
  simp only [List.getD_eq_getElem?_getD, List.getElem?_take, List.getElem?_drop]
  rw [if_pos (by omega)]

theorem writeLoop_spec {src : List UInt8} : ∀ fuel tot off s,
    Blocks sb s.bitmap s.data (s.inos ip) → (s.din ip).type ≠ .none → tot ≤ n →
    off + (n - tot) ≤ MAXFILE * BSIZE → n - tot < fuel →
    WpUpTo A (writeLoop sb ip src n fuel tot off) (Stored sb ip src n tot off s) s := by
  intro fuel
  induction fuel with
  | zero =>
    intro tot off s _ _ _ _ hfuel
    omega
  | succ fuel ih =>
    intro tot off s h ht htot hfit hfuel
    unfold writeLoop
    by_cases hlt : tot < n
    · rw [if_pos hlt]
      have hbn : off / BSIZE < MAXFILE := by
        simp only [MAXFILE, NDIRECT, NINDIRECT, BSIZE] at hfit ⊢
        omega
      refine (bmap_spec h ht hbn).bind fun r t hr => ?_
      have hkept : (∀ o, off ≤ o → o < off + (n - tot) →
          fileBlock s.data (s.din ip) (o / BSIZE) ≠ 0) → t.bitmap = s.bitmap := by
        intro hall
        rw [(hr.kept (hall off (Nat.le_refl _) (by omega))).1]
      have hblk : 1 ≤ (off % BSIZE + (n - tot) + (BSIZE - 1)) / BSIZE := by
        simp only [BSIZE]
        omega
      by_cases hr0 : r = 0
      · rw [if_pos hr0]
        refine upTo_pure ⟨Nat.le_refl _, htot, ⟨0, by omega, by omega, by omega, ?_⟩, ?_, hkept, ?_⟩
        · exact Wrote.none hr ht h off _
        · intro _ _
          rcases hr.result with h0 | h0
          · refine ⟨h0.2, ?_, .inl rfl⟩
            rw [Nat.sub_self, Nat.add_zero]
            by_contra hne
            exact hne ((hr.kept hne).2.symm.trans hr0)
          · exact absurd hr0 h0.1
        · have := hr.room
          omega
      · rw [if_neg hr0]
        dsimp only
        have hm := Nat.min_le_left (n - tot) (BSIZE - off % BSIZE)
        have hm' := Nat.min_le_right (n - tot) (BSIZE - off % BSIZE)
        have hpos : 0 < min (n - tot) (BSIZE - off % BSIZE) := by
          have := Nat.mod_lt off (show 0 < BSIZE by decide)
          omega
        have hends : min (n - tot) (BSIZE - off % BSIZE) = n - tot ∨
            min (n - tot) (BSIZE - off % BSIZE) = BSIZE - off % BSIZE := by omega
        generalize min (n - tot) (BSIZE - off % BSIZE) = m at hm hm' hpos hends
        have hlen : ((src.drop tot).take m).length ≤ m := List.length_take_le _ _
        have hin : off % BSIZE + ((src.drop tot).take m).length ≤ BSIZE := by omega
        have hchunk := (Wrote.chunk h ht hbn hr hr0 hin).congr fun k hk => getD_take_drop src hk
        have hshort : ((src.drop tot).take m).length < m → src.length < n := by
          rw [List.length_take, List.length_drop]
          omega
        generalize hb : (src.drop tot).take m = bytes at hlen hchunk hshort
        apply upTo_bind_modify
        split
        · rename_i hcut
          refine upTo_pure ⟨Nat.le_refl _, htot, ⟨_, by omega, by omega, ?_, hchunk⟩, ?_, hkept, ?_⟩
          · intro hsrc
            exact absurd (hshort hcut) (by omega)
          · intro _ hsrc
            exact absurd (hshort hcut) (by omega)
          · change _ ≤ free sb.size t.bitmap + _
            have := hr.room
            omega
        · rename_i hcut
          obtain hbm : bytes.length = m := by omega
          rw [hbm] at hchunk
          refine (ih (tot + m) (off + m) _ hchunk.blocks (hchunk.same.type ▸ ht) (by omega)
            (by omega) (by omega)).mono fun r' u hu => ?_
          obtain ⟨w, hw1, hw2, hw3, hw4⟩ := hu.wrote
          have hlo := hu.lo
          have hob : ∀ o, o < off + (n - tot) → o / BSIZE < MAXFILE := by
            intro o ho
            simp only [MAXFILE, NDIRECT, NINDIRECT, BSIZE] at hfit ⊢
            omega
          refine ⟨by omega, hu.hi, ⟨m + w, by omega, by omega, fun hs => by have := hw3 hs; omega, ?_⟩,
            ?_, ?_, ?_⟩
          · refine hchunk.trans (hw4.congr (fun k _ => ?_)) (by omega)
            rw [Nat.add_assoc]
          · intro hlt' hsrc
            obtain ⟨hfree, hzero, hstop⟩ := hu.full hlt' hsrc
            have hpos : off + m + (r' - (tot + m)) = off + (r' - tot) := by omega
            rw [hpos] at hzero hstop
            refine ⟨hfree, ?_, .inr ?_⟩
            · by_contra hne
              exact hchunk.has _ (hob _ (by omega)) hne hzero
            · rcases hstop with hstop | hstop
              · simp only [BSIZE] at hends ⊢
                omega
              · exact hstop
          · intro hall
            rw [← hkept hall]
            refine hu.kept fun o h1 h2 => ?_
            exact hchunk.has _ (hob o (by omega)) (hall o (by omega) (by omega))
          · have h1 := hr.room
            have h2 := hu.room
            change free sb.size t.bitmap ≤ _ at h2
            rcases hends with hmn | hmn
            · have hsame : u.bitmap = t.bitmap := hu.kept fun o _ _ => by omega
              rw [hsame]
              omega
            · simp only [BSIZE] at h2 hm hmn hblk ⊢
              omega
    · rw [if_neg hlt]
      obtain rfl : tot = n := by omega
      exact upTo_pure ⟨Nat.le_refl _, Nat.le_refl _, ⟨0, by omega, by omega, by omega,
        Wrote.refl h off _⟩, fun hlt' => absurd hlt' hlt, fun _ => rfl, by omega⟩

theorem din_setDin (s : Fs) (ip : Nat) (d : Dinode) : (s.setDin ip d).din ip = d := by
  simp only [setDin, setEntry, din, update_self]

theorem setDin_self (s : Fs) (ip : Nat) : s.setDin ip (s.din ip) = s := by
  simp only [setDin, setEntry, din, update_eq_self]

structure Written (sb : Superblock) (ip : Nat) (s t : Fs) (off m w : Nat) (f : Nat → UInt8) :
    Prop where
  blocks : Blocks sb t.bitmap t.data t.dinode
  dinode : t.dinode = update s.dinode ip (t.din ip)
  itable : t.itable = update s.itable ip { s.itable ip with din := t.din ip }
  same : SameMeta (t.din ip) { s.din ip with size := max (s.din ip).size (off + m) }
  others : ∀ i, i ≠ ip → view t.data (t.dinode i) = view s.data (s.dinode i)
  self : view t.data (t.din ip) = (view s.data (s.din ip)).write off m w f
  slots : Attached ip (own s.data (s.inos ip)) (own t.data t.dinode)

theorem Wrote.finish (hs : Blocks sb s.bitmap s.data (s.inos ip)) (h : Wrote sb ip s t off w f)
    (ht : (s.din ip).type ≠ .none) (hmw : m ≤ w) (hoff : off ≤ (s.din ip).size)
    (hfit : off + m ≤ MAXFILE * BSIZE)
    (hd : d = { t.din ip with size := max (t.din ip).size (off + m) }) :
    Written sb ip s ((t.setDin ip d).setDinode ip d) off m w f := by
  have hself := inos_self s ip
  have hfitd : (s.din ip).size ≤ MAXFILE * BSIZE := by
    have hf := hs.fits ip (by rwa [hself])
    rwa [hself] at hf
  have hdin : ((t.setDin ip d).setDinode ip d).din ip = d := by
    simp only [setDinode, setDin, setEntry, din, update_self]
  have hblock : ∀ bn, fileBlock t.data d bn = fileBlock t.data (t.din ip) bn := by
    rw [hd]
    exact fun _ => rfl
  have hdsize : d.size = max (s.din ip).size (off + m) := by rw [hd, h.same.size]
  have hdtype : d.type = (s.din ip).type := by rw [hd, h.same.type]
  have hin : ∀ o, o < d.size → o < (s.din ip).size ∨ off ≤ o ∧ o < off + w := by
    intro o ho
    omega
  have hold : ∀ o, o < (s.din ip).size → o / BSIZE < MAXFILE ∧
      fileBlock s.data (s.din ip) (o / BSIZE) ≠ 0 := by
    intro o ho
    have hb := Nat.lt_of_le_of_lt (Nat.div_mul_le_self o BSIZE) ho
    have ht' : (s.inos ip ip).type ≠ .none := by rwa [hself]
    have hb' : o / BSIZE * BSIZE < (s.inos ip ip).size := by rwa [hself]
    have hf := hs.full ip ht' (o / BSIZE) hb'
    have hl := hs.block_lt ht' hb'
    rw [hself] at hf
    exact ⟨hl, hf⟩
  have hown : own t.data (update (t.inos ip) ip d) = own t.data (t.inos ip) := by
    refine own_setInode ?_ ?_
    · rw [inos_self, hd]
    · rw [inos_self, hd]
      exact fun _ _ => rfl
  refine ⟨?_, ?_, ?_, ?_, ?_, ?_, ?_⟩
  · have hset := h.blocks.setInode hown ?_ ?_
    · rw [inos, update_idem] at hset
      exact hset
    · intro _ bn hbn
      rw [hblock]
      have hdiv : bn * BSIZE / BSIZE = bn := Nat.mul_div_cancel bn (by decide)
      rcases hin _ hbn with ho | ⟨h1, h2⟩
      · obtain ⟨hl, hne⟩ := hold _ ho
        rw [hdiv] at hl hne
        exact h.has bn hl hne
      · have hne := (h.new _ h1 h2).1
        rwa [hdiv] at hne
    · intro _
      omega
  · rw [hdin]
    change update t.dinode ip d = _
    rw [h.dinode]
  · exact itable_setDin h.itable _
  · rw [hdin]
    exact ⟨hdtype, by rw [hd, h.same.major], by rw [hd, h.same.minor], by rw [hd, h.same.nlink],
      hdsize⟩
  · intro i hi
    change view t.data (update t.dinode ip d i) = _
    rw [update_of_ne hi, h.dinode]
    exact h.others i hi
  · rw [hdin]
    change view t.data d = _
    rw [view, view, if_neg (by rwa [hdtype]), if_neg ht, FileView.write, hdsize]
    congr 1
    · rw [hd, h.same.major]
    · rw [hd, h.same.minor]
    · rw [hd, h.same.nlink]
    · funext o
      by_cases ho : o < max (s.din ip).size (off + m)
      · have hraw : t.data (fileBlock t.data d (o / BSIZE)) (o % BSIZE) = raw t.data (t.din ip) o := by
          rw [hblock, raw]
        rw [if_pos ho, hraw]
        by_cases hr : off ≤ o ∧ o < off + w
        · rw [if_pos ⟨hr.1, hr.2, ho⟩, (h.new o hr.1 hr.2).2]
        · have hos : o < (s.din ip).size := (hin o (by omega)).resolve_right hr
          rw [if_neg (fun hh => hr ⟨hh.1, hh.2.1⟩), h.old o (hold o hos).1 (hold o hos).2 hr]
          exact (if_pos hos).symm
      · rw [if_neg ho, if_neg (fun hh => ho hh.2.2)]
        exact (if_neg (by omega)).symm
  · rw [inos, update_idem] at hown
    exact hown.symm ▸ h.slots

/-- What `writei` returns: -1 and nothing was done, or how much was written. Less than `n`
was written only if the disk is full or the source could not be read. -/
def WriteResult (sb : Superblock) (ip : Nat) (src : List UInt8) (off n : Nat) (s : Fs) (r : Int)
    (t : Fs) : Prop :=
  r = -1 ∧ t = s ∧ ((s.din ip).size < off ∨ MAXFILE * BSIZE < off + n) ∨
  ∃ m w : Nat, r = m ∧ m ≤ n ∧ (n ≤ src.length → w = m) ∧
    (m < n → n ≤ src.length → free sb.size t.bitmap = 0 ∧
      fileBlock s.data (s.din ip) ((off + m) / BSIZE) = 0 ∧ (m = 0 ∨ (off + m) % BSIZE = 0)) ∧
    ((∀ o, off ≤ o → o < off + n → fileBlock s.data (s.din ip) (o / BSIZE) ≠ 0) →
      t.bitmap = s.bitmap) ∧
    free sb.size s.bitmap ≤
      free sb.size t.bitmap + 2 * ((off % BSIZE + n + (BSIZE - 1)) / BSIZE) ∧
    Written sb ip s t off m w fun k => src.getD k 0

theorem writei_spec (h : Blocks sb s.bitmap s.data (s.inos ip)) (ht : (s.din ip).type ≠ .none)
    (src : List UInt8) (off n : Nat) :
    WpUpTo A (writei sb ip src off n) (WriteResult sb ip src off n s) s := by
  have hself := inos_self s ip
  have hfitd : (s.din ip).size ≤ MAXFILE * BSIZE := by
    have hf := h.fits ip (by rwa [hself])
    rwa [hself] at hf
  apply upTo_bind_get
  split
  · rename_i hbad
    refine upTo_pure (.inl ⟨rfl, rfl, ?_⟩)
    simp only [MAXFILE, NDIRECT, NINDIRECT, BSIZE] at hfitd ⊢
    omega
  · rename_i hok
    split
    · exact upTo_pure (.inl ⟨rfl, rfl, .inr ‹_›⟩)
    · rename_i hfit
      apply upTo_bind
      refine (writeLoop_spec (n + 1) 0 off s h ht (Nat.zero_le _) (by omega) (by omega)).mono
        fun r t hr => ?_
      obtain ⟨w, hw1, hw2, hw3, hw⟩ := hr.wrote
      have hoff : off ≤ (s.din ip).size := by omega
      have hdone := hw.finish h ht (m := r) (by omega) hoff (by omega) rfl
      have hkept := hr.kept
      have hroom := hr.room
      have hfull := hr.full
      simp only [Nat.zero_add] at hdone
      apply upTo_bind_get
      have hpost : ∀ u, u = (t.setDin ip { t.din ip with size := max (t.din ip).size (off + r) }) →
          WpUpTo A (do
            iupdate ip
            pure (r : Int)) (WriteResult sb ip src off n s) u := by
        rintro u rfl
        apply upTo_bind_modify
        rw [din_setDin]
        exact upTo_pure (.inr ⟨r, w, rfl, hr.hi, hw3, hfull, hkept, hroom, hdone⟩)
      split
      · rename_i hgrow
        apply upTo_bind_modify
        refine hpost _ ?_
        rw [Nat.max_eq_right (Nat.le_of_lt hgrow)]
      · rename_i hgrow
        refine hpost _ ?_
        rw [Nat.max_eq_left (by omega)]
        exact (setDin_self t ip).symm

end Fs

end Xv6
