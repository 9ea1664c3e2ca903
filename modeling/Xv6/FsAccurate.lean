import Xv6.FsLinks

/-! What successful calls do to names and counts. -/

namespace Xv6

open StateProg

namespace Fs

variable {sb : Superblock} {s t : Fs} {ip dp k : Nat} {held : List Nat}
  {F : Nat → FileView} {N : Nat} {name : Name} {ty : FileType} {major minor : Int}

def Accurate (N : Nat) (F : Nat → FileView) : Prop :=
  ∀ i, (F i).type ≠ .none → (F i).nlink = names N F i

theorem Accurate.counted (h : Accurate N F)
    (hs : ∀ i, (F i).type ≠ .none → Xv6.short (F i).nlink = (F i).nlink) : Counted N F where
  nlink i ht := by rw [← h i ht, hs i ht]
  bound i ht := by
    have hlt : Xv6.short (F i).nlink < 2 ^ 15 := Int.bmod_lt (by decide)
    rw [hs i ht, h i ht] at hlt
    omega

theorem short_of_lt {n : Nat} (h : n < 2 ^ 15) : Xv6.short n = n :=
  Int.bmod_eq_of_le (by omega) (by omega)

theorem Counted.accurate (h : Counted N F)
    (hb : ∀ i, (F i).type ≠ .none → names N F i < 2 ^ 15) : Accurate N F := by
  intro i ht
  rw [h.nlink i ht, short_of_lt (hb i ht)]

theorem Namespace.valid (h : Namespace sb.ninodes F) (ht : (F ip).type ≠ .none)
    (hname : Name.Valid name) : (Dirent.mk ip name).Valid :=
  ⟨Nat.lt_of_lt_of_le (h.inum ip ht).2 sb.ninodes_le, hname⟩

theorem drop_of_linked {refs : List Nat} (h : (F ip).nlink ≠ 0) : drop F refs ip = F :=
  if_neg (fun hc => h hc.2.1)

theorem Namespace.drop (h : Namespace N F) (refs : List Nat) (i : Nat) :
    Namespace N (Fs.drop F refs i) ∧ (∀ d, LinkedDir (Fs.drop F refs i) d ↔ LinkedDir F d) ∧
      ∀ j, names N (Fs.drop F refs i) j = names N F j := by
  unfold Fs.drop
  split
  · rename_i hc
    exact h.free hc.1 hc.2.1
  · exact ⟨h, fun _ => Iff.rfl, fun _ => rfl⟩

theorem Namespace.linkMade (h : Namespace sb.ninodes s.files) (hdp : LinkedDir s.files dp)
    (hm : LinkMade sb s held ip dp name t) (hb : names sb.ninodes s.files ip + 1 < 2 ^ 16) :
    Namespace sb.ninodes t.files ∧ (∀ d, LinkedDir t.files d ↔ LinkedDir s.files d) ∧
      ∀ i, i ≠ 0 → names sb.ninodes t.files i =
        names sb.ninodes s.files i + if i = ip then 1 else 0 := by
  obtain ⟨k, hk, hfree, -, hf⟩ := hm.entry
  obtain ⟨hG, hlink, hnames⟩ := h.link hm.typed hm.notDir hdp hm.absent (h.valid hm.typed hm.valid)
    hk hfree hb rfl
  have hne : dp ≠ ip := by
    rintro rfl
    exact hm.notDir hdp.1
  have hnz : (Function.update (relink s.files ip 1) dp ((s.files dp).setEnt k ⟨ip, name⟩) ip).nlink
      ≠ 0 := by
    rw [Function.update_of_ne hne.symm, relink_self]
    show Xv6.short ((s.files ip).nlink + 1) ≠ 0
    rw [h.counted.nlink ip hm.typed, short_add_short]
    exact_mod_cast short_ne_zero (n := names sb.ninodes s.files ip + 1) (by omega) hb
  rw [hf, drop_of_linked hnz]
  exact ⟨hG, hlink, hnames⟩

theorem Namespace.created (h : Namespace sb.ninodes s.files) (hty : ty ≠ .none)
    (hdp : LinkedDir s.files dp) (hm : Created sb s held dp name ty major minor ip t)
    (hb : ty = .dir → names sb.ninodes s.files dp + 1 < 2 ^ 16) :
    Namespace sb.ninodes t.files ∧
      (∀ d, LinkedDir t.files d ↔ d = ip ∧ ty = .dir ∨ LinkedDir s.files d) ∧
      ∀ i, i ≠ 0 → names sb.ninodes t.files i = names sb.ninodes s.files i +
        (if i = ip then 1 else 0) + if ty = .dir ∧ i = dp then 1 else 0 := by
  obtain ⟨k, v, hk, hfree, hv, hf⟩ := hm.entry
  have hde : (Dirent.mk ip name).Valid := ⟨Nat.lt_of_lt_of_le hm.lt sb.ninodes_le, hm.valid⟩
  obtain ⟨hG, hlink, hnames⟩ := h.create hty hm.fresh hm.pos hm.lt hv hdp hm.absent hde hk hfree hb rfl
  rw [hf, drop_of_linked ((hlink dp).mpr (Or.inr hdp)).2]
  exact ⟨hG, hlink, hnames⟩

theorem Namespace.unlinkMade (h : Namespace N s.files) (hdp : LinkedDir s.files dp)
    (hm : UnlinkMade s held dp name k t) (hip : ip = ((s.files dp).ent k).inum) :
    Namespace N t.files ∧ (∀ d, LinkedDir t.files d → LinkedDir s.files d) ∧
      (∀ d, LinkedDir s.files d → ¬ LinkedDir t.files d → (s.files d).Empty) ∧
      ∀ i, i ≠ 0 → names N t.files i + (if i = ip then 1 else 0) +
        (if (s.files ip).type = .dir ∧ i = dp then 1 else 0) = names N s.files i := by
  obtain ⟨hk, hedge⟩ := h.found hdp hm.notDot hm.notDotdot hm.found
  have hf := hm.files
  have hempty := hm.empty
  rw [← hip] at hedge hf hempty
  unfold unlinked cleared at hf
  by_cases hd : (s.files ip).type = .dir
  · obtain ⟨hG, hlink, hnames⟩ := h.unlinkDir hk hedge hd (hempty hd) rfl
    obtain ⟨-, hne, -⟩ := h.shaped.kid dp hdp k ip hk hedge.2.2 hd
    have hdpl := ((hlink dp).mpr ⟨hdp, hne.symm⟩).2
    rw [relink_of_ne _ hne.symm] at hdpl
    rw [if_pos hd, drop_of_linked hdpl] at hf
    obtain ⟨hG', hlink', hnames'⟩ := hG.drop held ip
    rw [hf]
    refine ⟨hG', fun d hl => ((hlink d).mp ((hlink' d).mp hl)).1, fun d hl hnl => ?_, fun i hi => ?_⟩
    · rw [hlink', hlink] at hnl
      obtain rfl : d = ip := by
        by_contra hc
        exact hnl ⟨hl, hc⟩
      exact hempty hd
    · rw [hnames', ← hnames i hi]
      simp only [hd, true_and]
  · obtain ⟨hG, hlink, hnames⟩ := h.unlinkFile hdp hk hedge hd rfl
    have hne : dp ≠ ip := by
      rintro rfl
      exact hd hdp.1
    have hdpl := ((hlink dp).mpr hdp).2
    rw [relink_of_ne _ hne] at hdpl
    rw [if_neg hd, drop_of_linked hdpl] at hf
    obtain ⟨hG', hlink', hnames'⟩ := hG.drop held ip
    rw [hf]
    refine ⟨hG', fun d hl => (hlink d).mp ((hlink' d).mp hl), fun d hl hnl => ?_, fun i hi => ?_⟩
    · rw [hlink', hlink] at hnl
      exact absurd hl hnl
    · rw [hnames', ← hnames i hi]
      simp only [hd, false_and, if_false, Nat.add_zero]

theorem Namespace.removable (h : Namespace N F) (hdp : LinkedDir F dp) (h1 : name ≠ Xv6.dot)
    (h2 : name ≠ Xv6.dotdot) (hfind : (F dp).find name = some k) :
    ((F dp).ent k).inum ≠ dp ∧ (F ((F dp).ent k).inum).type ≠ .none ∧
      1 ≤ names N F ((F dp).ent k).inum := by
  obtain ⟨hk, hedge⟩ := h.found hdp h1 h2 hfind
  refine ⟨fun he => ?_, h.shaped.named dp hdp k _ hk hedge.2.2, ?_⟩
  · rw [he] at hedge
    exact (h.shaped.kid dp hdp k dp hk hedge.2.2 hdp.1).2.1 rfl
  · by_contra hz
    exact h.no_name (by omega) hdp hk hedge.2.2

theorem Good.short_nlink {lk : List Nat} (h : Good sb s held lk) {i : Nat}
    (ht : (s.files i).type ≠ .none) : Xv6.short (s.files i).nlink = (s.files i).nlink := by
  rw [files_type] at ht
  rw [files_nlink ht]
  exact h.short i

end Fs

end Xv6
