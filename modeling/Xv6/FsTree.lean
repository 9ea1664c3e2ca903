import Mathlib.Algebra.Order.BigOperators.Group.Finset
import Mathlib.Logic.Relation
import Xv6.FsShape

/-! The names of an inode, counted over the directories that are linked, and the tree of
directories. -/

namespace Xv6

namespace FileView

variable {v : FileView} {k : Nat}

def naming (v : FileView) (i : Nat) : Nat := v.ents.countP fun e => e.inum = i ∧ e.name ≠ dot

/-- What a directory adds to the names of `i`: nothing if it is not linked itself. -/
def share (v : FileView) (i : Nat) : Nat :=
  if v.type = .dir ∧ v.nlink ≠ 0 then v.naming i else 0

theorem naming_pos {i : Nat} {e : Dirent} (he : v.ents[k]? = some e) (hin : e.inum = i)
    (hd : e.name ≠ dot) : 1 ≤ v.naming i := by
  rw [naming, Nat.succ_le_iff, List.countP_pos_iff]
  exact ⟨e, List.mem_of_getElem? he, by simpa using ⟨hin, hd⟩⟩

theorem naming_setEnt (hs : v.size % DESIZE = 0) (hk : k ≤ v.ents.length) {de : Dirent} (hde : de.Valid)
    (i : Nat) : (v.setEnt k de).naming i +
      (if k < v.ents.length ∧ (v.ent k).inum = i ∧ (v.ent k).name ≠ dot then 1 else 0) =
    v.naming i + if de.inum = i ∧ de.name ≠ dot then 1 else 0 := by
  rcases Nat.lt_or_eq_of_le hk with hlt | rfl
  · have hle : (if (v.ent k).inum = i ∧ (v.ent k).name ≠ dot then 1 else 0) ≤ v.naming i := by
      split
      · rename_i hc
        exact naming_pos (by rw [getElem?_ents, if_pos hlt]) hc.1 hc.2
      · exact Nat.zero_le _
    unfold naming at hle ⊢
    rw [ents_setEnt_lt hs hlt hde, List.countP_set hlt, getElem_ents]
    simp only [decide_eq_true_eq, hlt, true_and]
    omega
  · unfold naming
    rw [ents_setEnt_end hs hde, List.countP_append, List.countP_singleton]
    simp only [decide_eq_true_eq, Nat.lt_irrefl, false_and, if_false, Nat.add_zero]

end FileView

namespace Fs

variable {D : Nat → Prop} {F G : Nat → FileView} {N dp ip k i d : Nat}

def LinkedDir (F : Nat → FileView) (d : Nat) : Prop := (F d).type = .dir ∧ (F d).nlink ≠ 0

def names (N : Nat) (F : Nat → FileView) (i : Nat) : Nat := ∑ d ∈ Finset.range N, (F d).share i

/-- Entry `k` of directory `p`, which is linked and has `.` and `..` in front, names `c`. -/
def Edge (F : Nat → FileView) (p k c : Nat) : Prop := LinkedDir F p ∧ 2 ≤ k ∧ (F p).Names k c

def Child (F : Nat → FileView) (p c : Nat) : Prop := (F c).type = .dir ∧ ∃ k, Edge F p k c

/-- The directories without `.` and `..` are a tree with the root at its top, and `..`
names the parent. -/
structure Tree (F : Nat → FileView) : Prop where
  root : LinkedDir F ROOTINO
  rootUp : (F ROOTINO).up = ROOTINO
  top : ∀ p k, ¬ Edge F p k ROOTINO
  unique : ∀ d, (F d).type = .dir → ∀ p k p' k', Edge F p k d → Edge F p' k' d → p = p' ∧ k = k'
  parent : ∀ d, LinkedDir F d → d ≠ ROOTINO → ∃ k, Edge F (F d).up k d
  reach : ∀ d, LinkedDir F d → Relation.ReflTransGen (Child F) ROOTINO d

structure Counted (N : Nat) (F : Nat → FileView) : Prop where
  nlink : ∀ i, (F i).type ≠ .none → (F i).nlink = Xv6.short (names N F i)
  bound : ∀ i, (F i).type ≠ .none → names N F i < 2 ^ 16

theorem share_of_linkedDir (h : LinkedDir F d) :
    (F d).share i = (F d).naming i := if_pos h

theorem share_of_not (h : ¬ LinkedDir F d) : (F d).share i = 0 := if_neg h

theorem share_congr (hl : LinkedDir G d ↔ LinkedDir F d)
    (he : LinkedDir F d → (G d).ents = (F d).ents) : (G d).share i = (F d).share i := by
  by_cases h : LinkedDir F d
  · rw [share_of_linkedDir (hl.mpr h), share_of_linkedDir h, FileView.naming, he h, FileView.naming]
  · exact (share_of_not (fun hg => h (hl.mp hg))).trans (share_of_not h).symm

theorem names_change (hd : d < N) (hother : ∀ e, e ≠ d → (G e).share i = (F e).share i) :
    names N G i + (F d).share i = names N F i + (G d).share i := by
  have hmem := Finset.mem_range.mpr hd
  have hrest : ∑ e ∈ (Finset.range N).erase d, (G e).share i =
      ∑ e ∈ (Finset.range N).erase d, (F e).share i :=
    Finset.sum_congr rfl fun e he => hother e (Finset.ne_of_mem_erase he)
  unfold names
  rw [← Finset.add_sum_erase _ _ hmem, ← Finset.add_sum_erase _ (fun d => (F d).share i) hmem,
    hrest]
  omega

theorem names_congr (h : ∀ e, (G e).share i = (F e).share i) :
    names N G i = names N F i := Finset.sum_congr rfl fun e _ => h e

theorem share_le_names (hd : d < N) (i : Nat) : (F d).share i ≤ names N F i :=
  Finset.single_le_sum (f := fun d => (F d).share i) (fun _ _ => Nat.zero_le _)
    (Finset.mem_range.mpr hd)

theorem Counted.zero_iff (h : Counted N F) (ht : (F i).type ≠ .none) :
    (F i).nlink = 0 ↔ names N F i = 0 := by
  have hb := h.bound i ht
  rw [h.nlink i ht, Xv6.short, Int.bmod_def]
  split <;> omega

theorem Shaped.naming_zero (hF : Shaped D F) (hd : D d) (hup : (F d).up ≠ i)
    (hno : ∀ k, 2 ≤ k → ¬ (F d).Names k i) (hi : i ≠ 0) : (F d).naming i = 0 := by
  rw [FileView.naming, List.countP_eq_zero]
  intro e he hc
  obtain ⟨hin, hname⟩ : e.inum = i ∧ e.name ≠ Xv6.dot := by simpa using hc
  obtain ⟨j, hj⟩ := List.getElem?_of_mem he
  match j with
  | 0 =>
    rw [hF.dot d hd] at hj
    exact hname (Option.some.inj hj ▸ rfl)
  | 1 =>
    rw [(hF.dotdot d hd).2] at hj
    obtain rfl := Option.some.inj hj
    exact hup hin
  | j + 2 => exact hno (j + 2) (by omega) ⟨hi, e, hj, hin⟩

theorem Shaped.naming_empty (hF : Shaped D F) (hd : D d) (hempty : (F d).Empty) (hi : i ≠ 0) :
    (F d).naming i = if (F d).up = i then 1 else 0 := by
  have hlist : (F d).ents = ⟨d, Xv6.dot⟩ :: ⟨(F d).up, Xv6.dotdot⟩ :: (F d).ents.drop 2 := by
    have h0 := hF.dot d hd
    have h1 := (hF.dotdot d hd).2
    match hl : (F d).ents with
    | [] => simp [hl] at h0
    | [a] => simp [hl] at h1
    | a :: b :: rest =>
      rw [hl] at h0 h1
      simp only [List.getElem?_cons_zero, List.getElem?_cons_succ, Option.some.injEq] at h0 h1
      rw [h0, h1]
      rfl
  have hrest : ((F d).ents.drop 2).countP (fun e => e.inum = i ∧ e.name ≠ Xv6.dot) = 0 := by
    rw [List.countP_eq_zero]
    intro e he hc
    have hin : e.inum = i ∧ e.name ≠ Xv6.dot := by simpa using hc
    exact hi (hin.1.symm.trans (hempty e he))
  have hne : Xv6.dotdot ≠ Xv6.dot := by decide
  rw [FileView.naming, hlist, List.countP_cons, List.countP_cons, hrest]
  simp [hne]

theorem Tree.congr (h : Tree F) (hlink : ∀ d, LinkedDir G d ↔ LinkedDir F d)
    (hdir : ∀ d, (G d).type = .dir → (F d).type = .dir)
    (hkeep : ∀ p j c, Edge F p j c → (F c).type = .dir → (G c).type = .dir)
    (hedge : ∀ p j c, (F c).type = .dir → (Edge G p j c ↔ Edge F p j c))
    (hup : ∀ d, LinkedDir F d → (G d).up = (F d).up) : Tree G where
  root := (hlink _).mpr h.root
  rootUp := (hup _ h.root).trans h.rootUp
  top p j he := h.top p j ((hedge p j _ h.root.1).mp he)
  unique d hd p k p' k' he he' := by
    have hd := hdir d hd
    exact h.unique d hd p k p' k' ((hedge _ _ _ hd).mp he) ((hedge _ _ _ hd).mp he')
  parent d hd hne := by
    have hd := (hlink d).mp hd
    obtain ⟨k, hk⟩ := h.parent d hd hne
    rw [hup d hd]
    exact ⟨k, (hedge _ _ _ hd.1).mpr hk⟩
  reach d hd := by
    refine Relation.ReflTransGen.mono ?_ _ _ (h.reach d ((hlink d).mp hd))
    rintro a b ⟨hb, k, hk⟩
    exact ⟨hkeep a k b hk hb, k, (hedge _ _ _ hb).mpr hk⟩

theorem Tree.addLeaf (h : Tree F) (hip : (F ip).type ≠ .dir) (hdp : LinkedDir F dp)
    (hno : ∀ p j, ¬ Edge F p j ip) (hlink : ∀ d, LinkedDir G d ↔ d = ip ∨ LinkedDir F d)
    (hdir : ∀ d, (G d).type = .dir ↔ d = ip ∨ (F d).type = .dir)
    (hedge : ∀ p j c, Edge G p j c ↔ Edge F p j c ∨ p = dp ∧ j = k ∧ c = ip)
    (hup : ∀ d, LinkedDir F d → (G d).up = (F d).up) (hipup : (G ip).up = dp) : Tree G := by
  have hstep : ∀ d, LinkedDir F d → Relation.ReflTransGen (Child G) ROOTINO d := by
    intro d hd
    refine Relation.ReflTransGen.mono ?_ _ _ (h.reach d hd)
    rintro a b ⟨hb, j, hj⟩
    exact ⟨(hdir b).mpr (.inr hb), j, (hedge _ _ _).mpr (.inl hj)⟩
  have hold : ∀ {d p j}, d ≠ ip → Edge G p j d → Edge F p j d := by
    intro d p j hd he
    exact ((hedge p j d).mp he).resolve_right fun hc => hd hc.2.2
  have hnew : ∀ {p j}, Edge G p j ip → p = dp ∧ j = k := by
    intro p j he
    obtain ⟨rfl, rfl, -⟩ := ((hedge p j ip).mp he).resolve_left (hno p j)
    exact ⟨rfl, rfl⟩
  have hroot : ROOTINO ≠ ip := by
    rintro rfl
    exact hip h.root.1
  refine ⟨(hlink _).mpr (.inr h.root), (hup _ h.root).trans h.rootUp,
    fun p j he => h.top p j (hold hroot he), fun d hd p j p' j' he he' => ?_, fun d hd hne => ?_,
    fun d hd => ?_⟩
  · by_cases hc : d = ip
    · subst hc
      obtain ⟨rfl, rfl⟩ := hnew he
      obtain ⟨rfl, rfl⟩ := hnew he'
      exact ⟨rfl, rfl⟩
    · exact h.unique d (((hdir d).mp hd).resolve_left hc) p j p' j' (hold hc he) (hold hc he')
  · rcases (hlink d).mp hd with rfl | hd
    · exact ⟨k, (hedge _ _ _).mpr (.inr ⟨hipup, rfl, rfl⟩)⟩
    · obtain ⟨j, hj⟩ := h.parent d hd hne
      rw [hup d hd]
      exact ⟨j, (hedge _ _ _).mpr (.inl hj)⟩
  · rcases (hlink d).mp hd with rfl | hd
    · exact (hstep dp hdp).tail ⟨(hdir _).mpr (.inl rfl), k,
        (hedge _ _ _).mpr (.inr ⟨rfl, rfl, rfl⟩)⟩
    · exact hstep d hd

theorem Tree.removeLeaf (h : Tree F) (hroot : ip ≠ ROOTINO) (hno : ∀ j c, ¬ Edge F ip j c)
    (hlink : ∀ d, LinkedDir G d ↔ LinkedDir F d ∧ d ≠ ip)
    (hdir : ∀ d, d ≠ ip → ((G d).type = .dir ↔ (F d).type = .dir))
    (hedge : ∀ p j c, Edge G p j c ↔ Edge F p j c ∧ c ≠ ip)
    (hup : ∀ d, LinkedDir F d → d ≠ ip → (G d).up = (F d).up) : Tree G where
  root := (hlink _).mpr ⟨h.root, hroot.symm⟩
  rootUp := (hup _ h.root hroot.symm).trans h.rootUp
  top p j he := h.top p j ((hedge p j _).mp he).1
  unique d hd p j p' j' he he' := by
    obtain ⟨he, hne⟩ := (hedge p j d).mp he
    exact h.unique d ((hdir d hne).mp hd) p j p' j' he ((hedge p' j' d).mp he').1
  parent d hd hne := by
    obtain ⟨hd, hdi⟩ := (hlink d).mp hd
    obtain ⟨j, hj⟩ := h.parent d hd hne
    rw [hup d hd hdi]
    exact ⟨j, (hedge _ _ _).mpr ⟨hj, hdi⟩⟩
  reach d hd := by
    obtain ⟨hd', hdi⟩ := (hlink d).mp hd
    clear hd
    have hpath := h.reach d hd'
    -- Along the path no directory is `ip`, which has nothing below it.
    induction hpath with
    | refl => exact Relation.ReflTransGen.refl
    | @tail b c _ hbc ih =>
      obtain ⟨hc, j, hj⟩ := hbc
      have hbi : b ≠ ip := by
        rintro rfl
        exact hno j c hj
      exact (ih hj.1 hbi).tail ⟨(hdir c hdi).mpr hc, j, (hedge _ _ _).mpr ⟨hj, hdi⟩⟩

end Fs

end Xv6
