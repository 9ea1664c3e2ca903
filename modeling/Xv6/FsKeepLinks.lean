import Xv6.ActionRun
import Xv6.FsImage

/-! The calls that make and remove names keep link counts accurate. -/

namespace Xv6

open ActionRun StateProg

namespace Fs

variable {sb : Superblock} {s t : Fs} {cwd : Nat} {held : List Nat}

/-- What is asked of a state in which a call starts: the disk and the inode table are in
order, no inode is locked, processes hold inodes in use, and links are counted right. -/
structure AccurateState (sb : Superblock) (s : Fs) (held : List Nat) (cwd : Nat) : Prop where
  good : Good sb s held []
  typed : ∀ i ∈ held, (s.files i).type ≠ .none
  cwd : cwd ∈ held
  dirs : Dirs s.files
  shaped : Shaped (LinkedDir s.files) s.files
  tree : Tree s.files
  accurate : Accurate sb.ninodes s.files

theorem AccurateState.namespace (h : AccurateState sb s held cwd) :
    Namespace sb.ninodes s.files where
  dirs := h.dirs
  shaped := h.shaped
  inum i ht := h.good.inum i (by rwa [← files_type])
  counted := h.accurate.counted fun _ ht => h.good.short_nlink ht
  tree := h.tree

theorem AccurateState.names_lt (h : AccurateState sb s held cwd) {i : Nat}
    (ht : (s.files i).type ≠ .none) : names sb.ninodes s.files i < 2 ^ 15 := by
  have hlt : Xv6.short (s.files i).nlink < 2 ^ 15 := Int.bmod_lt (by decide)
  rw [h.good.short_nlink ht, h.accurate i ht] at hlt
  exact_mod_cast hlt

/-- The panics that a call may end in: the inode table is full, or, only if an entry names a
free inode, a lookup comes upon that. -/
def Panics (s : Fs) (e : FsPanic) : Prop :=
  e = .igetNoInodes ∨ e = .ilockNoType ∧ ¬ NoDangling s.files

theorem AccurateState.ready (h : AccurateState sb s held cwd) :
    Ready sb (Panics s) s held cwd where
  good := h.good
  dirs := h.dirs
  sound := by
    by_cases hd : NoDangling s.files
    · exact .inl hd
    · exact .inr (.inr ⟨rfl, hd⟩)
  typed := h.typed
  cwd := h.cwd
  root := .inl h.tree.root.typed

/-- The directory in which the last element of `path` is looked up has a link. -/
def ParentLinked (F : Nat → FileView) (cwd : Nat) (path : Path) : Prop :=
  ∀ dp name, resolve F cwd path true = some (dp, name) → (F dp).nlink ≠ 0

/-- If no count reaches `2 ^ 15`, the counts are accurate again, the directories are a tree,
and a directory that lost its links had no entries. -/
def KeepsLinks (sb : Superblock) (s t : Fs) : Prop :=
  (∀ i, (t.files i).type ≠ .none → names sb.ninodes t.files i < 2 ^ 15) →
    Accurate sb.ninodes t.files ∧ Tree t.files ∧ Shaped (LinkedDir t.files) t.files ∧
      ∀ d, LinkedDir s.files d → ¬ LinkedDir t.files d → (s.files d).Empty

theorem KeepsLinks.of_namespace (h : Namespace sb.ninodes t.files)
    (hlost : ∀ d, LinkedDir s.files d → ¬ LinkedDir t.files d → (s.files d).Empty) :
    KeepsLinks sb s t := fun hb => ⟨h.counted.accurate hb, h.tree, h.shaped, hlost⟩

theorem KeepsLinks.of_same (h : Namespace sb.ninodes s.files) (hf : t.files = s.files) :
    KeepsLinks sb s t := by
  refine KeepsLinks.of_namespace (by rwa [hf]) fun d hl hnl => ?_
  rw [hf] at hnl
  exact absurd hl hnl

/-- Every call that makes or removes a name, whichever way it ends, keeps the counts and the
tree. -/
theorem calls_keep_links_accurate (h : AccurateState sb s held cwd) :
    (∀ path ty major minor, ty ≠ .none → ParentLinked s.files cwd path →
      WpUpTo (Panics s) (create sb cwd path ty major minor) (fun _ t => KeepsLinks sb s t) s) ∧
    (∀ old new, ParentLinked s.files cwd new →
      WpUpTo (Panics s) (sysLink sb cwd old new) (fun _ t => KeepsLinks sb s t) s) ∧
    ∀ path, ParentLinked s.files cwd path →
      WpUpTo (Panics s) (sysUnlink sb cwd path) (fun _ t => KeepsLinks sb s t) s := by
  have hn := h.namespace
  have hroom : ∀ n, Room (Panics s) n := fun n => .inl (.inl rfl)
  refine ⟨fun path ty major minor hty hp => ?_, fun old new hp => ?_, fun path hp => ?_⟩
  · refine (create_spec h.ready (hroom _) path (.inl hty)).mono ?_
    rintro r t (⟨-, -, hf, -⟩ | ⟨ip, -, -, hf, -⟩ | ⟨ip, dp, name, -, -, hres, hm⟩)
    · exact KeepsLinks.of_same hn hf
    · exact KeepsLinks.of_same hn hf
    · have hdp : LinkedDir s.files dp := ⟨hm.parent, hp dp name hres⟩
      have hlt := h.names_lt hdp.typed
      obtain ⟨hG, hlink, -⟩ := hn.created hty hdp hm (by omega)
      exact KeepsLinks.of_namespace hG fun d hl hnl => absurd ((hlink d).mpr (.inr hl)) hnl
  · refine (sysLink_spec h.ready (hroom _) old new).mono ?_
    rintro r t ⟨-, ⟨-, hf, -⟩ | ⟨-, ip, m, dp, name, -, hres, hm⟩⟩
    · exact KeepsLinks.of_same hn hf
    · have hdp : LinkedDir s.files dp := ⟨hm.parent, hp dp name hres⟩
      have hlt := h.names_lt hm.typed
      obtain ⟨hG, hlink, -⟩ := hn.linkMade hdp hm (by omega)
      exact KeepsLinks.of_namespace hG fun d hl hnl => absurd ((hlink d).mpr hl) hnl
  · have hrem : Removable (Panics s) s.files cwd path := by
      intro dp name k hres h1 h2 hfind
      obtain ⟨hne, ht, hpos⟩ :=
        hn.removable ⟨resolve_dir hres, hp dp name hres⟩ h1 h2 hfind
      refine ⟨.inl hne, .inl ?_⟩
      rw [h.accurate _ ht]
      exact_mod_cast hpos
    refine (sysUnlink_spec h.ready (hroom _) path hrem).mono ?_
    rintro r t ⟨-, ⟨-, hf, -⟩ | ⟨-, dp, name, k, hres, hm⟩⟩
    · exact KeepsLinks.of_same hn hf
    · have hdp : LinkedDir s.files dp := ⟨hm.parent, hp dp name hres⟩
      obtain ⟨hG, -, hlost, -⟩ := hn.unlinkMade hdp hm rfl
      exact KeepsLinks.of_namespace hG hlost

theorem mkfsImage_accurate : AccurateState mkfsSuper mkfsImage [ROOTINO] ROOTINO where
  good := mkfsImage_good
  typed i hi := by
    rw [List.mem_singleton.mp hi]
    exact mkfsImage_fresh.typed
  cwd := List.mem_singleton_self _
  dirs := mkfsImage_fresh.dirs
  shaped := mkfsImage_fresh.shaped
  tree := mkfsImage_fresh.tree
  accurate := mkfsImage_fresh.accurate

def pathA : Path := ⟨fileName, by decide +kernel, by decide +kernel⟩

def pathD : Path := ⟨[100], by decide +kernel, by decide +kernel⟩

def pathE : Path := ⟨[101], by decide +kernel, by decide +kernel⟩

/-- Making `d`, linking `a` as `e` and removing `a` in the root directory of an image. -/
theorem mkfsImage_keeps_links : ∃ t₁ t₂ t₃,
    create mkfsSuper ROOTINO pathD .dir 0 0 mkfsImage = .ok (some 3, t₁) ∧ KeepsLinks mkfsSuper mkfsImage t₁ ∧
    sysLink mkfsSuper ROOTINO pathA pathE mkfsImage = .ok (0, t₂) ∧ KeepsLinks mkfsSuper mkfsImage t₂ ∧
    sysUnlink mkfsSuper ROOTINO pathA mkfsImage = .ok (0, t₃) ∧ KeepsLinks mkfsSuper mkfsImage t₃ := by
  have hp : ∀ path, ParentLinked mkfsImage.files ROOTINO path :=
    fun _ _ _ hres => mkfsImage_fresh.parent_linked hres
  have hkeep := calls_keep_links_accurate mkfsImage_accurate
  obtain ⟨⟨_, t₁⟩, h₁, rfl⟩ := Ends.exists_ok (P := fun x => x.1 = some 3)
    (r := create mkfsSuper ROOTINO pathD .dir 0 0 mkfsImage) (by decide +kernel)
  obtain ⟨⟨_, t₂⟩, h₂, rfl⟩ := Ends.exists_ok (P := fun x => x.1 = 0)
    (r := sysLink mkfsSuper ROOTINO pathA pathE mkfsImage) (by decide +kernel)
  obtain ⟨⟨_, t₃⟩, h₃, rfl⟩ := Ends.exists_ok (P := fun x => x.1 = 0)
    (r := sysUnlink mkfsSuper ROOTINO pathA mkfsImage) (by decide +kernel)
  -- The image is made a variable, or the calls would be evaluated on it.
  generalize mkfsImage = s at hp hkeep h₁ h₂ h₃ ⊢
  obtain ⟨hcreate, hlink, hunlink⟩ := hkeep
  exact ⟨t₁, t₂, t₃, h₁, (hcreate pathD .dir 0 0 (by decide) (hp pathD)).ok h₁, h₂,
    (hlink pathA pathE (hp pathE)).ok h₂, h₃, (hunlink pathA (hp pathA)).ok h₃⟩

end Fs

end Xv6
