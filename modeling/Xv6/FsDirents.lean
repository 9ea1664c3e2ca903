import Xv6.FsTable

/-! Directories as lists of entries, and what `dirlookup` and `dirlink` do to them. -/

namespace Xv6

open BlockOwner Function StateProg

structure Name.Valid (name : Name) : Prop where
  short : name.length ≤ DIRSIZ
  nonzero : ∀ b ∈ name, b ≠ 0

namespace Dirent

structure Valid (de : Dirent) : Prop where
  inum : de.inum < 2 ^ 16
  name : Name.Valid de.name

theorem length_bytes {de : Dirent} (h : de.Valid) : de.bytes.length = DESIZE := by
  have := h.name.short
  simp only [bytes, List.length_append, List.length_cons, List.length_nil, List.length_take,
    List.length_replicate, DESIZE, DIRSIZ] at this ⊢
  omega

theorem ofBytes_bytes {de : Dirent} (h : de.Valid) : ofBytes de.bytes = de := by
  obtain ⟨inum, name⟩ := de
  have hlen : (name.take DIRSIZ ++ List.replicate (DIRSIZ - name.length) 0).length = DIRSIZ := by
    simp only [List.length_append, List.length_take, List.length_replicate]
    omega
  have hname : (name.take DIRSIZ ++ List.replicate (DIRSIZ - name.length) (0 : UInt8)).takeWhile
      (· ≠ 0) = name := by
    rw [List.take_of_length_le h.name.short, List.takeWhile_append_of_pos]
    · simp
    · intro b hb
      simpa using h.name.nonzero b hb
  have hdrop : (([UInt8.ofNat inum, UInt8.ofNat (inum / 256)] ++ (name.take DIRSIZ ++
      List.replicate (DIRSIZ - name.length) (0 : UInt8))).drop 2).take DIRSIZ =
      name.take DIRSIZ ++ List.replicate (DIRSIZ - name.length) 0 :=
    List.take_of_length_le (Nat.le_of_eq hlen)
  have hinum : inum < 2 ^ 16 := h.inum
  simp only [ofBytes, bytes, hdrop, hname]
  congr 1
  simp only [List.cons_append, List.nil_append, List.getD_cons_zero, List.getD_cons_succ,
    UInt8.toNat_ofNat']
  omega

theorem valid_empty : empty.Valid := ⟨by decide, by decide, by simp [empty]⟩

end Dirent

namespace FileView

variable {v : FileView} {de : Dirent} {k j : Nat}

def ent (v : FileView) (k : Nat) : Dirent := Dirent.ofBytes (v.slice (DESIZE * k) DESIZE)

def ents (v : FileView) : List Dirent := (List.range (v.size / DESIZE)).map v.ent

def setEnt (v : FileView) (k : Nat) (de : Dirent) : FileView :=
  v.write (DESIZE * k) DESIZE DESIZE fun j => de.bytes.getD j 0

structure IsDir (v : FileView) : Prop where
  type : v.type = .dir
  size : v.size % DESIZE = 0

def find (v : FileView) (name : Name) : Option Nat :=
  v.ents.findIdx? fun e => e.inum ≠ 0 ∧ name = e.name

theorem length_ents : v.ents.length = v.size / DESIZE := by simp [ents]

theorem getElem_ents (hk : k < v.ents.length) : v.ents[k] = v.ent k := by
  simp [ents]

theorem slice_setEnt (h : de.Valid) (hj : DESIZE * j + DESIZE ≤
      (v.setEnt k de).size) : (v.setEnt k de).slice (DESIZE * j) DESIZE =
        if j = k then de.bytes else v.slice (DESIZE * j) DESIZE := by
  have hsize : (v.setEnt k de).size = max v.size (DESIZE * k + DESIZE) := rfl
  split
  · rename_i hjk
    subst j
    apply List.ext_getElem
    · simp [slice, Dirent.length_bytes h]
    · intro i h1 h2
      have hi : i < DESIZE := by simpa [slice] using h1
      simp only [slice, List.getElem_map, List.getElem_range, setEnt, write]
      rw [if_pos (by omega), Nat.add_sub_cancel_left, List.getD_eq_getElem?_getD,
        List.getElem?_eq_getElem h2, Option.getD_some]
  · apply List.map_congr_left
    intro i hi
    have hi := List.mem_range.mp hi
    simp only [setEnt, write]
    rw [if_neg (by simp only [DESIZE, DIRSIZ] at hi ⊢; omega)]

theorem ent_setEnt (h : de.Valid) (hj : DESIZE * j + DESIZE ≤
      (v.setEnt k de).size) : (v.setEnt k de).ent j = if j = k then de else v.ent j := by
  rw [ent, slice_setEnt h hj]
  split
  · exact Dirent.ofBytes_bytes h
  · rfl

theorem setEnt_size (hs : v.size % DESIZE = 0) (hk : k ≤ v.ents.length) (de : Dirent) :
    (v.setEnt k de).size = if k < v.ents.length then v.size else v.size + DESIZE := by
  change max v.size (DESIZE * k + DESIZE) = _
  rw [length_ents] at hk ⊢
  simp only [DESIZE, DIRSIZ] at hs hk ⊢
  split <;> omega

theorem ents_setEnt_lt (hs : v.size % DESIZE = 0) (hk : k < v.ents.length) (h : de.Valid) :
    (v.setEnt k de).ents = v.ents.set k de := by
  have hsize := setEnt_size hs (Nat.le_of_lt hk) de
  rw [if_pos hk] at hsize
  apply List.ext_getElem
  · simp [length_ents, hsize]
  · intro j h1 h2
    rw [getElem_ents h1, List.getElem_set]
    rw [length_ents, hsize] at h1
    rw [ent_setEnt h (by rw [hsize]; simp only [DESIZE, DIRSIZ] at h1 ⊢; omega)]
    split
    · rw [if_pos (by omega)]
    · rw [if_neg (by omega), getElem_ents]

theorem ents_setEnt_end (hs : v.size % DESIZE = 0) (h : de.Valid) :
    (v.setEnt v.ents.length de).ents = v.ents ++ [de] := by
  have hsize := setEnt_size hs (Nat.le_refl _) de
  rw [if_neg (Nat.lt_irrefl _)] at hsize
  have hlen : (v.setEnt v.ents.length de).ents.length = v.ents.length + 1 := by
    rw [length_ents, hsize, length_ents]
    simp only [DESIZE, DIRSIZ] at hs ⊢
    omega
  apply List.ext_getElem
  · simp [hlen]
  · intro j h1 h2
    rw [getElem_ents h1]
    have hj : DESIZE * j + DESIZE ≤ (v.setEnt v.ents.length de).size := by
      rw [length_ents] at h1
      simp only [DESIZE, DIRSIZ] at h1 ⊢
      omega
    rw [ent_setEnt h hj]
    split
    · rename_i hjl
      simp only [hjl, List.getElem_concat_length]
    · rw [List.getElem_append_left (by omega), getElem_ents]

end FileView

namespace Fs

variable {sb : Superblock} {A : FsPanic → Prop} {s t : Fs} {dp k inum : Nat} {refs lk : List Nat}
  {name : Name}

theorem Good.din_type (h : Good sb s refs lk) (hl : dp ∈ lk) : (s.din dp).type = (s.files dp).type := by
  rw [h.locked_din hl, files_type]

theorem Good.din_size (h : Good sb s refs lk) (hl : dp ∈ lk) : (s.din dp).size = (s.files dp).size := by
  rw [h.locked_din hl, files_size (h.locked_din hl ▸ h.locked_typed hl)]

theorem Good.din_nlink (h : Good sb s refs lk) (hl : dp ∈ lk) :
    (s.din dp).nlink = (s.files dp).nlink := by
  rw [h.locked_din hl, files_nlink (h.locked_din hl ▸ h.locked_typed hl)]

theorem entries_eq {v : FileView} (hs : v.size % DESIZE = 0) : entries v.size = v.ents.length := by
  rw [FileView.length_ents, entries]
  simp only [DESIZE, DIRSIZ] at hs ⊢
  omega

theorem readDirent_spec (h : Good sb s refs lk) (hl : dp ∈ lk) (hk : k < (s.files dp).ents.length)
    (p : FsPanic) : WpUpTo A (readDirent sb dp (DESIZE * k) p)
      (fun r t => t = s ∧ r = (s.files dp).ent k) s := by
  rw [FileView.length_ents] at hk
  have hin : DESIZE * k + DESIZE ≤ (s.din dp).size := by
    rw [h.din_size hl]
    simp only [DESIZE, DIRSIZ] at hk ⊢
    omega
  refine (readi_inside (h.locked_blocks hl) (h.locked_typed hl) hin).bind ?_
  rintro _ t ⟨rfl, rfl⟩
  dsimp only
  refine upTo_pure ⟨rfl, ?_⟩
  rw [h.locked_din hl]
  rfl

theorem dirlookup_fits (h : Good sb s refs lk) (hl : dp ∈ lk) (hd : (s.files dp).IsDir) (name : Name)
    (hA : ∀ k, (s.files dp).find name = some k → Fits A refs ((s.files dp).ent k).inum) :
    WpUpTo A (dirlookup sb dp name) (fun r t =>
      r = none ∧ (s.files dp).find name = none ∧ t = s ∨
      ∃ k, (s.files dp).find name = some k ∧
        r = some (((s.files dp).ent k).inum, DESIZE * k) ∧
        Good sb t (((s.files dp).ent k).inum :: refs) lk ∧ SameDisk s t) s := by
  apply upTo_bind_get
  rw [h.din_type hl, h.din_size hl, entries_eq hd.size, if_neg (fun hne => hne hd.type)]
  refine upTo_loop (fun j t => t = s ∧ ∀ i, i < j → i < (s.files dp).ents.length →
    ¬ (((s.files dp).ent i).inum ≠ 0 ∧ name = ((s.files dp).ent i).name)) ⟨rfl, by simp⟩ ?_ ?_
  · rintro j t hj ⟨rfl, hno⟩
    refine (readDirent_spec h hl hj _).bind ?_
    rintro _ t' ⟨rfl, rfl⟩
    split
    · rename_i hz
      refine upTo_pure ⟨rfl, fun i hi hlt => ?_⟩
      rcases Nat.lt_succ_iff_lt_or_eq.mp hi with hi | rfl
      · exact hno i hi hlt
      · exact fun hm => hm.1 hz
    · rename_i hz
      split
      · rename_i hn
        have hfind : (t'.files dp).find name = some j := by
          rw [FileView.find, List.findIdx?_eq_some_iff_getElem]
          refine ⟨hj, ?_, fun i hi => ?_⟩
          · rw [FileView.getElem_ents]
            simpa using ⟨hz, hn⟩
          · rw [FileView.getElem_ents]
            simpa using hno i hi (by omega)
        refine (iget_fits h (hA j hfind)).bind ?_
        rintro _ t' ⟨rfl, hg, hs⟩
        exact upTo_pure (.inr ⟨j, hfind, rfl, hg, hs⟩)
      · rename_i hn
        refine upTo_pure ⟨rfl, fun i hi hlt => ?_⟩
        rcases Nat.lt_succ_iff_lt_or_eq.mp hi with hi | rfl
        · exact hno i hi hlt
        · exact fun hm => hn hm.2
  · rintro t ⟨rfl, hno⟩
    refine .inl ⟨rfl, ?_, rfl⟩
    rw [FileView.find, List.findIdx?_eq_none_iff]
    intro e he
    obtain ⟨i, hi, rfl⟩ := List.getElem_of_mem he
    rw [FileView.getElem_ents]
    simpa using hno i hi hi

theorem dirlookup_spec (h : Good sb s refs lk) (hl : dp ∈ lk) (hd : (s.files dp).IsDir)
    (hA : Room A refs.length) (name : Name) : WpUpTo A (dirlookup sb dp name) (fun r t =>
      r = none ∧ (s.files dp).find name = none ∧ t = s ∨
      ∃ k, (s.files dp).find name = some k ∧
        r = some (((s.files dp).ent k).inum, DESIZE * k) ∧
        Good sb t (((s.files dp).ent k).inum :: refs) lk ∧ SameDisk s t) s :=
  dirlookup_fits h hl hd name fun _ _ => hA.fits _

def slotCost (v : FileView) (k : Nat) : Nat :=
  if k = v.ents.length ∧ k % (BSIZE / DESIZE) = 0 then 2 else 0

theorem write_zero (v : FileView) {off : Nat} (hoff : off ≤ v.size) (f : Nat → UInt8) :
    v.write off 0 0 f = v := by
  simp only [FileView.write, Nat.add_zero] at hoff ⊢
  congr 1
  · exact Nat.max_eq_left hoff
  · funext o
    rw [if_neg (by omega)]

theorem Good.fits (h : Good sb s refs lk) (hl : dp ∈ lk) : (s.files dp).size ≤ MAXFILE * BSIZE := by
  rw [← h.din_size hl, h.locked_din hl]
  exact h.blocks.fits dp (h.locked_din hl ▸ h.locked_typed hl)

theorem Good.slot_block (h : Good sb s refs lk) (hl : dp ∈ lk)
    (hk : k ≤ (s.files dp).ents.length)
    (hcost : ¬ (k = (s.files dp).ents.length ∧ k % (BSIZE / DESIZE) = 0)) {o : Nat}
    (h1 : DESIZE * k ≤ o) (h2 : o < DESIZE * k + DESIZE) :
    fileBlock s.data (s.din dp) (o / BSIZE) ≠ 0 := by
  have hb := h.locked_blocks hl
  have hself := inos_self s dp
  have hfull := hb.full dp (by rw [hself]; exact h.locked_typed hl) (o / BSIZE)
  rw [hself] at hfull
  apply hfull
  rw [h.din_size hl]
  rw [FileView.length_ents] at hk hcost
  simp only [DESIZE, DIRSIZ, BSIZE] at *
  omega

theorem writeEnt_spec (h : Good sb s refs lk) (hl : dp ∈ lk) (hd : (s.files dp).IsDir)
    (hk : k ≤ (s.files dp).ents.length) {de : Dirent} (hde : de.Valid) :
    WpUpTo A (writei sb dp de.bytes (DESIZE * k) DESIZE) (fun r t => Good sb t refs lk ∧
      Attached dp s.slots t.slots ∧ free sb.size s.bitmap ≤ free sb.size t.bitmap + slotCost (s.files dp) k ∧
      (r = DESIZE ∧ t.files = update s.files dp ((s.files dp).setEnt k de) ∨
        r ≠ DESIZE ∧ t.files = s.files ∧ k = (s.files dp).ents.length ∧
          (free sb.size t.bitmap = 0 ∨ MAXFILE * BSIZE < DESIZE * k + DESIZE))) s := by
  have hfit := h.fits hl
  have hlen := Dirent.length_bytes hde
  refine (writei_spec (h.locked_blocks hl) (h.locked_typed hl) de.bytes (DESIZE * k) DESIZE).mono ?_
  rintro r t (⟨rfl, rfl, hbad⟩ | ⟨m, w, rfl, hm, hw, hfull, hkept, hroom, hwr⟩)
  · refine ⟨h, .refl _ _, by omega, .inr ⟨by decide, rfl, ?_⟩⟩
    rw [h.din_size hl] at hbad
    rw [FileView.length_ents] at hk ⊢
    simp only [DESIZE, DIRSIZ, MAXFILE, NDIRECT, NINDIRECT, BSIZE] at *
    omega
  · obtain rfl := hw (by omega)
    obtain ⟨hg, hf⟩ := h.written hl hwr
    have hsl := hwr.slots
    rw [h.inos_eq hl] at hsl
    refine ⟨hg, hsl, ?_, ?_⟩
    · unfold slotCost
      split
      · simp only [DESIZE, DIRSIZ, BSIZE] at hroom
        omega
      · rename_i hcost
        rw [hkept (fun o h1 h2 => h.slot_block hl hk hcost h1 h2)]
        omega
    · by_cases hmn : w = DESIZE
      · subst hmn
        exact .inl ⟨rfl, hf⟩
      · obtain ⟨hfree, hzero, hstop⟩ := hfull (by omega) (by omega)
        have hw0 : w = 0 := by
          rcases hstop with hstop | hstop
          · exact hstop
          · simp only [DESIZE, DIRSIZ, BSIZE] at *
            omega
        subst hw0
        refine .inr ⟨by decide, ?_, ?_, .inl hfree⟩
        · rw [hf, write_zero, update_eq_self]
          rw [FileView.length_ents] at hk
          simp only [DESIZE, DIRSIZ] at hk ⊢
          omega
        · by_contra hne
          refine h.slot_block hl hk (fun hc => hne hc.1) (o := DESIZE * k) (Nat.le_refl _)
            (by simp only [DESIZE, DIRSIZ]; omega) ?_
          rwa [Nat.add_zero] at hzero

theorem emptyAt_loop (h : Good sb s refs lk) (hl : dp ∈ lk) :
    WpUpTo A (loop (s.files dp).ents.length (emptyAt sb dp)) (fun r t => t = s ∧
      ∃ k, r.getD (DESIZE * (s.files dp).ents.length) = DESIZE * k ∧
        k ≤ (s.files dp).ents.length ∧
        (k < (s.files dp).ents.length → ((s.files dp).ent k).inum = 0)) s := by
  refine upTo_loop (fun _ t => t = s) rfl ?_ ?_
  · rintro j t hj rfl
    refine (readDirent_spec h hl hj _).bind ?_
    rintro _ t' ⟨rfl, rfl⟩
    split
    · rename_i hz
      exact upTo_pure ⟨rfl, j, rfl, Nat.le_of_lt hj, fun _ => hz⟩
    · exact upTo_pure rfl
  · rintro t rfl
    exact ⟨rfl, _, rfl, Nat.le_refl _, fun hlt => absurd hlt (Nat.lt_irrefl _)⟩

theorem Good.put_back (h : Good sb s refs lk) (hg : Good sb t (dp :: refs) lk) (hs : SameDisk s t) :
    WpUpTo A (iput dp) (fun _ u => Good sb u refs lk ∧ SameDisk s u) t := by
  refine (iput_keep hg ?_ ?_).mono fun _ u hu => ⟨hu.1, hs.trans hu.2⟩
  · rw [hs.dinode]
    exact fun ht hn => (h.orphan dp ht hn).1
  · exact fun hin => (h.held dp hin).1

/-- What `dirlink` does: nothing if the name is there or there is no room, otherwise a new
entry in the first free slot or at the end. -/
structure Linked (sb : Superblock) (s : Fs) (dp : Nat) (de : Dirent) (t : Fs) : Prop where
  absent : (s.files dp).find de.name = none
  entry : ∃ k, k ≤ (s.files dp).ents.length ∧
    (k < (s.files dp).ents.length → ((s.files dp).ent k).inum = 0) ∧
    free sb.size s.bitmap ≤ free sb.size t.bitmap + slotCost (s.files dp) k ∧
    t.files = update s.files dp ((s.files dp).setEnt k de)

theorem dirlink_fits (h : Good sb s refs lk) (hl : dp ∈ lk) (hd : (s.files dp).IsDir)
    (hde : (Dirent.mk inum name).Valid)
    (hA : ∀ k, (s.files dp).find name = some k → Fits A refs ((s.files dp).ent k).inum) :
    WpUpTo A (dirlink sb dp name inum) (fun r t => Good sb t refs lk ∧ Attached dp s.slots t.slots ∧
      (r = false ∧ t.files = s.files ∧ ((s.files dp).find name ≠ none ∨ free sb.size t.bitmap = 0 ∨
          MAXFILE * BSIZE < (s.files dp).size + DESIZE) ∨
        r = true ∧ Linked sb s dp ⟨inum, name⟩ t)) s := by
  refine (dirlookup_fits h hl hd name hA).bind ?_
  rintro r t (⟨rfl, hfind, rfl⟩ | ⟨k, hfind, rfl, hg, hs⟩)
  · apply upTo_bind_get
    rw [h.din_size hl, entries_eq hd.size]
    refine (emptyAt_loop h hl).bind ?_
    rintro off t' ⟨rfl, k, hoff, hk, hempty⟩
    rw [hoff]
    refine (writeEnt_spec h hl hd hk hde).bind ?_
    rintro r u ⟨hg, hsl, hroom, ⟨rfl, hf⟩ | ⟨hr, hf, hend, hfull⟩⟩
    · exact upTo_pure ⟨hg, hsl, .inr ⟨by simp, hfind, k, hk, hempty, hroom, hf⟩⟩
    · refine upTo_pure ⟨hg, hsl, .inl ⟨decide_eq_false hr, hf, .inr ?_⟩⟩
      rw [hend, FileView.length_ents] at hfull
      have hsize := hd.size
      simp only [DESIZE, DIRSIZ, MAXFILE, NDIRECT, NINDIRECT, BSIZE] at hfull hsize ⊢
      omega
  · dsimp only
    refine (h.put_back hg hs).bind ?_
    rintro _ u ⟨hgu, hsu⟩
    exact upTo_pure ⟨hgu, hsu.slots ▸ .refl _ _, .inl ⟨rfl, hsu.files, .inl (by rw [hfind]; simp)⟩⟩

theorem dirlink_spec (h : Good sb s refs lk) (hl : dp ∈ lk) (hd : (s.files dp).IsDir)
    (hA : Room A refs.length) (hde : (Dirent.mk inum name).Valid) :
    WpUpTo A (dirlink sb dp name inum) (fun r t => Good sb t refs lk ∧ Attached dp s.slots t.slots ∧
      (r = false ∧ t.files = s.files ∧ ((s.files dp).find name ≠ none ∨ free sb.size t.bitmap = 0 ∨
          MAXFILE * BSIZE < (s.files dp).size + DESIZE) ∨
        r = true ∧ Linked sb s dp ⟨inum, name⟩ t)) s :=
  dirlink_fits h hl hd hde fun _ _ => hA.fits _

end Fs

end Xv6
