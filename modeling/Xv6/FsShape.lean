import Xv6.FsCreate
import Xv6.FsUnlink

/-! The form of directories: `.` and `..` first, then names of inodes in use. -/

namespace Xv6

open Function

namespace FileView

variable {v : FileView} {k : Nat}

def Names (v : FileView) (k i : Nat) : Prop := i ≠ 0 ∧ ∃ e, v.ents[k]? = some e ∧ e.inum = i

def up (v : FileView) : Nat := (v.ent 1).inum

theorem getElem?_ents : v.ents[k]? = if k < v.ents.length then some (v.ent k) else none := by
  split
  · rename_i hk
    rw [List.getElem?_eq_getElem hk, getElem_ents]
  · rename_i hk
    exact List.getElem?_eq_none (by omega)

theorem names_iff {i : Nat} : v.Names k i ↔ i ≠ 0 ∧ k < v.ents.length ∧ (v.ent k).inum = i := by
  unfold Names
  rw [getElem?_ents]
  split
  · rename_i hk
    simp [hk]
  · rename_i hk
    simp [hk]

theorem getElem?_setEnt (hs : v.size % DESIZE = 0) (hk : k ≤ v.ents.length) {de : Dirent} (h : de.Valid)
    (j : Nat) : (v.setEnt k de).ents[j]? = if j = k then some de else v.ents[j]? := by
  rcases Nat.lt_or_eq_of_le hk with hlt | rfl
  · rw [ents_setEnt_lt hs hlt h, List.getElem?_set]
    by_cases hj : k = j
    · rw [if_pos hj, if_pos hj.symm, if_pos (by omega)]
    · rw [if_neg hj, if_neg (Ne.symm hj)]
  · rw [ents_setEnt_end hs h]
    by_cases hj : j = v.ents.length
    · rw [if_pos hj, hj, List.getElem?_append_right (Nat.le_refl _), Nat.sub_self]
      rfl
    · rw [if_neg hj]
      by_cases hlt : j < v.ents.length
      · rw [List.getElem?_append_left hlt]
      · rw [List.getElem?_append_right (by omega), List.getElem?_eq_none (by simp; omega),
          List.getElem?_eq_none (by omega)]

theorem setEnt_isDir (hd : v.IsDir) (hk : k ≤ v.ents.length) (de : Dirent) : (v.setEnt k de).IsDir := by
  refine ⟨hd.type, ?_⟩
  rw [setEnt_size hd.size hk]
  have := hd.size
  simp only [DESIZE, DIRSIZ] at this ⊢
  split <;> omega

end FileView

namespace Fs

variable {D E : Nat → Prop} {F G : Nat → FileView} {dp ip k d i j : Nat} {de : Dirent} {v : FileView}

theorem entered_isDir (hv : v.IsDir) (hk : k ≤ v.ents.length) (ip : Nat) (name : Name)
    (type : FileType) : (entered v k ip name type).IsDir := by
  have hset := FileView.setEnt_isDir hv hk ⟨ip, name⟩
  unfold entered
  split
  · exact ⟨hset.type, hset.size⟩
  · exact hset

theorem Dirs.update (h : Dirs F) (i : Nat) (hv : v.type = .dir → v.IsDir) :
    Dirs (Function.update F i v) := by
  intro j hj
  by_cases hi : j = i
  · rw [hi, update_self] at hj ⊢
    exact hv hj
  · rw [update_of_ne hi] at hj ⊢
    exact h j hj

theorem Dirs.relink (h : Dirs F) (i : Nat) (d : Int) : Dirs (Fs.relink F i d) :=
  h.update i fun ht => ⟨ht, (h i ht).size⟩

theorem Dirs.drop (h : Dirs F) (refs : List Nat) (i : Nat) : Dirs (Fs.drop F refs i) := by
  unfold Fs.drop
  split
  · exact h.update i (by rintro ⟨⟩)
  · exact h

/-- The directories in `D` are well formed: each starts with `.` and `..`, its other entries
have other names and name inodes in use, and a directory it names has it as parent. -/
structure Shaped (D : Nat → Prop) (F : Nat → FileView) : Prop where
  dir : ∀ d, D d → (F d).type = .dir
  dot : ∀ d, D d → (F d).ents[0]? = some ⟨d, dot⟩
  dotdot : ∀ d, D d → (F d).up ≠ 0 ∧ (F d).ents[1]? = some ⟨(F d).up, dotdot⟩
  plain : ∀ d, D d → ∀ k e, 2 ≤ k → (F d).ents[k]? = some e → e.inum ≠ 0 →
    e.name ≠ Xv6.dot ∧ e.name ≠ Xv6.dotdot
  named : ∀ d, D d → ∀ k i, 2 ≤ k → (F d).Names k i → (F i).type ≠ .none
  kid : ∀ d, D d → ∀ k i, 2 ≤ k → (F d).Names k i → (F i).type = .dir → D i ∧ i ≠ d ∧ (F i).up = d

/-- The inodes have the same types, and their directories the same entries but for slot `k`
of `dp`. -/
structure Edited (F : Nat → FileView) (dp k : Nat) (de : Dirent) (G : Nat → FileView) : Prop where
  type : ∀ i, (G i).type = (F i).type
  slot : ∀ i, (F i).type = .dir → ∀ j,
    (G i).ents[j]? = if i = dp ∧ j = k then some de else (F i).ents[j]?

theorem up_of_slot {e : Dirent} (h : v.ents[1]? = some e) : v.up = e.inum := by
  rw [FileView.getElem?_ents] at h
  split at h
  · exact congrArg Dirent.inum (Option.some.inj h)
  · contradiction

theorem Edited.names_of_ne (h : Edited F dp k de G) (hd : (F d).type = .dir)
    (hne : ¬ (d = dp ∧ j = k)) : (G d).Names j i ↔ (F d).Names j i := by
  unfold FileView.Names
  rw [h.slot d hd, if_neg hne]

theorem Edited.names_self (h : Edited F dp k de G) (hd : (F dp).type = .dir) :
    (G dp).Names k i ↔ i ≠ 0 ∧ de.inum = i := by
  unfold FileView.Names
  rw [h.slot dp hd, if_pos ⟨rfl, rfl⟩]
  simp

theorem Shaped.up_edit (hF : Shaped D F) (h : Edited F dp k de G) (hk : 2 ≤ k) (hd : D d) :
    (G d).up = (F d).up := by
  refine up_of_slot (e := ⟨(F d).up, Xv6.dotdot⟩) ?_
  rw [h.slot d (hF.dir d hd), if_neg (by omega)]
  exact (hF.dotdot d hd).2

theorem Shaped.edit (hF : Shaped D F) (h : Edited F dp k de G) (hk : 2 ≤ k)
    (hname : de.inum ≠ 0 → de.name ≠ Xv6.dot ∧ de.name ≠ Xv6.dotdot)
    (hnamed : de.inum ≠ 0 → (F de.inum).type ≠ .none)
    (hkid : de.inum ≠ 0 → (F de.inum).type = .dir →
      D de.inum ∧ de.inum ≠ dp ∧ (F de.inum).up = dp) :
    Shaped D G where
  dir d hd := by
    rw [h.type]
    exact hF.dir d hd
  dot d hd := by
    rw [h.slot d (hF.dir d hd), if_neg (by omega)]
    exact hF.dot d hd
  dotdot d hd := by
    rw [h.slot d (hF.dir d hd), if_neg (by omega), hF.up_edit h hk hd]
    exact hF.dotdot d hd
  plain d hd j e hj he hne := by
    rw [h.slot d (hF.dir d hd)] at he
    split at he
    · obtain rfl := Option.some.inj he
      exact hname hne
    · exact hF.plain d hd j e hj he hne
  named d hd j i hj hn := by
    rw [h.type]
    by_cases hc : d = dp ∧ j = k
    · obtain ⟨rfl, rfl⟩ := hc
      obtain ⟨h0, rfl⟩ := (h.names_self (hF.dir d hd)).mp hn
      exact hnamed h0
    · exact hF.named d hd j i hj ((h.names_of_ne (hF.dir d hd) hc).mp hn)
  kid d hd j i hj hn hi := by
    rw [h.type] at hi
    have hold : D i ∧ i ≠ d ∧ (F i).up = d := by
      by_cases hc : d = dp ∧ j = k
      · obtain ⟨rfl, rfl⟩ := hc
        obtain ⟨h0, rfl⟩ := (h.names_self (hF.dir d hd)).mp hn
        exact hkid h0 hi
      · exact hF.kid d hd j i hj ((h.names_of_ne (hF.dir d hd) hc).mp hn) hi
    rw [hF.up_edit h hk hold.1]
    exact hold

theorem SameTree.up (h : SameTree F G) (d : Nat) : (G d).up = (F d).up := by
  rw [FileView.up, h.ent, FileView.up]

theorem SameTree.names_iff (h : SameTree F G) : (G d).Names j i ↔ (F d).Names j i := by
  unfold FileView.Names
  rw [h.ents]

theorem Shaped.congr (hF : Shaped D F) (h : SameTree F G) : Shaped D G := by
  refine ⟨fun d hd => ?_, fun d hd => ?_, fun d hd => ?_, fun d hd => ?_, fun d hd j i hj hni => ?_,
    fun d hd j i hj hni hi => ?_⟩
  · rw [(h d).1]
    exact hF.dir d hd
  · rw [h.ents]
    exact hF.dot d hd
  · rw [h.ents, h.up]
    exact hF.dotdot d hd
  · rw [h.ents]
    exact hF.plain d hd
  · rw [(h i).1]
    exact hF.named d hd j i hj (h.names_iff.mp hni)
  · rw [(h i).1] at hi
    rw [h.up]
    exact hF.kid d hd j i hj (h.names_iff.mp hni) hi

theorem Shaped.restrict (hF : Shaped D F) (hsub : ∀ d, E d → D d)
    (hkid : ∀ d, E d → ∀ k i, 2 ≤ k → (F d).Names k i → (F i).type = .dir → E i) : Shaped E F where
  dir d hd := hF.dir d (hsub d hd)
  dot d hd := hF.dot d (hsub d hd)
  dotdot d hd := hF.dotdot d (hsub d hd)
  plain d hd := hF.plain d (hsub d hd)
  named d hd := hF.named d (hsub d hd)
  kid d hd k i hk hn hi :=
    ⟨hkid d hd k i hk hn hi, (hF.kid d (hsub d hd) k i hk hn hi).2⟩

theorem newInode_slot {ty : FileType} {major minor : Int} (hv : NewInode dp ip ty major minor v)
    (hd : v.type = .dir) :
    v.ents[0]? = some ⟨ip, dot⟩ ∧ v.ents[1]? = some ⟨dp, dotdot⟩ ∧ v.up = dp ∧
      ∀ k i, 2 ≤ k → ¬ v.Names k i := by
  obtain ⟨-, he⟩ := hv.dots (hv.type.symm.trans hd)
  have h1 : v.ents[1]? = some ⟨dp, dotdot⟩ := by rw [he]; rfl
  refine ⟨by rw [he]; rfl, h1, up_of_slot h1, ?_⟩
  rintro k i hk ⟨-, e, hke, -⟩
  rw [he, List.getElem?_eq_none (by simpa using hk)] at hke
  contradiction

theorem Shaped.setOther (hF : Shaped D F) (hip : ¬ D ip)
    (hno : ∀ d, D d → ∀ k, 2 ≤ k → ¬ (F d).Names k ip) (v : FileView) :
    Shaped D (update F ip v) := by
  have hother : ∀ {d}, D d → update F ip v d = F d := by
    intro d hd
    refine update_of_ne ?_ _ _
    rintro rfl
    exact hip hd
  have hkid : ∀ {d k i}, D d → 2 ≤ k → (F d).Names k i → update F ip v i = F i := by
    intro d k i hd hk hn
    refine update_of_ne ?_ _ _
    rintro rfl
    exact hno d hd k hk hn
  refine ⟨fun d hd => ?_, fun d hd => ?_, fun d hd => ?_, fun d hd => ?_, fun d hd k i hk hn => ?_,
    fun d hd k i hk hn hi => ?_⟩
  · rw [hother hd]
    exact hF.dir d hd
  · rw [hother hd]
    exact hF.dot d hd
  · rw [hother hd]
    exact hF.dotdot d hd
  · rw [hother hd]
    exact hF.plain d hd
  · rw [hother hd] at hn
    rw [hkid hd hk hn]
    exact hF.named d hd k i hk hn
  · rw [hother hd] at hn
    rw [hkid hd hk hn] at hi ⊢
    exact hF.kid d hd k i hk hn hi

theorem Shaped.addDir (hF : Shaped D F) (hip : (F ip).type = .dir) (h0 : (F ip).ents[0]? = some ⟨ip, Xv6.dot⟩)
    (h1 : (F ip).ents[1]? = some ⟨dp, Xv6.dotdot⟩) (hdp : dp ≠ 0)
    (h2 : ∀ k i, 2 ≤ k → ¬ (F ip).Names k i) : Shaped (fun d => d = ip ∨ D d) F := by
  refine ⟨?_, ?_, ?_, ?_, ?_, ?_⟩
  all_goals rintro d (rfl | hd)
  · exact hip
  · exact hF.dir d hd
  · exact h0
  · exact hF.dot d hd
  · rw [up_of_slot h1]
    exact ⟨hdp, h1⟩
  · exact hF.dotdot d hd
  · exact fun k e hk he hne => absurd ⟨hne, e, he, rfl⟩ (h2 k e.inum hk)
  · exact hF.plain d hd
  · exact fun k i hk hn => absurd hn (h2 k i hk)
  · exact hF.named d hd
  · exact fun k i hk hn => absurd hn (h2 k i hk)
  · intro k i hk hn hi
    obtain ⟨hD, hrest⟩ := hF.kid d hd k i hk hn hi
    exact ⟨Or.inr hD, hrest⟩

theorem Shaped.absent (hF : Shaped D F) (hd : D d) (h0 : d ≠ 0) {name : Name}
    (hnone : (F d).find name = none) : name ≠ Xv6.dot ∧ name ≠ Xv6.dotdot := by
  have hall := List.findIdx?_eq_none_iff.mp hnone
  obtain ⟨hup, hdd⟩ := hF.dotdot d hd
  constructor
  · rintro rfl
    have hmem := List.mem_of_getElem? (hF.dot d hd)
    simpa [h0] using hall _ hmem
  · rintro rfl
    have hmem := List.mem_of_getElem? hdd
    simpa [hup] using hall _ hmem

theorem Shaped.slot (hF : Shaped D F) (hd : D d) (h0 : d ≠ 0) (hk : k ≤ (F d).ents.length)
    (hfree : k < (F d).ents.length → ((F d).ent k).inum = 0) : 2 ≤ k := by
  have hdot := hF.dot d hd
  obtain ⟨hup, hdd⟩ := hF.dotdot d hd
  rw [FileView.getElem?_ents] at hdot hdd
  split at hdot
  · split at hdd
    · rename_i hl0 hl1
      by_contra hlt
      obtain rfl | rfl : k = 0 ∨ k = 1 := by omega
      · rw [Option.some.inj hdot] at hfree
        exact h0 (hfree hl0)
      · rw [Option.some.inj hdd] at hfree
        exact hup (hfree hl1)
    · contradiction
  · contradiction

end Fs

end Xv6
