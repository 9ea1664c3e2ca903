import Xv6.FsOps

/-! What `sys_unlink` does to the inodes. -/

namespace Xv6

open BlockOwner StateProg

def FileView.Empty (v : FileView) : Prop := ∀ e ∈ v.ents.drop 2, e.inum = 0

namespace Fs

variable {sb : Superblock} {A : FsPanic → Prop} {s t : Fs} {ip dp cwd k : Nat} {refs lk : List Nat}
  {F : Nat → FileView} {path : Path}

theorem empty_iff {v : FileView} :
    v.Empty ↔ ∀ i, 2 ≤ i → i < v.ents.length → (v.ent i).inum = 0 := by
  constructor
  · intro h i h2 hi
    have hlen : i - 2 < (v.ents.drop 2).length := by
      rw [List.length_drop]
      omega
    have he := h _ (List.getElem_mem hlen)
    rw [List.getElem_drop, FileView.getElem_ents, show 2 + (i - 2) = i by omega] at he
    exact he
  · intro h e he
    obtain ⟨i, hi, rfl⟩ := List.getElem_of_mem he
    rw [List.length_drop] at hi
    rw [List.getElem_drop, FileView.getElem_ents]
    exact h _ (by omega) (by omega)

theorem isdirempty_spec (h : Good sb s refs lk) (hl : ip ∈ lk) (hd : (s.files ip).IsDir) :
    WpUpTo A (isdirempty sb ip) (fun r t => t = s ∧ (r = true ↔ (s.files ip).Empty)) s := by
  apply upTo_bind_get
  rw [h.din_size hl, entries_eq hd.size, empty_iff]
  apply upTo_bind
  refine upTo_loopFrom (fun j t => t = s ∧ ∀ i, 2 ≤ i → i < j → ((s.files ip).ent i).inum = 0)
    ⟨rfl, by omega⟩ ?_ ?_
  · rintro j t h2 hj ⟨rfl, hz⟩
    refine (readDirent_spec h hl (by omega) _).bind ?_
    rintro _ t' ⟨rfl, rfl⟩
    split
    · rename_i hj0
      refine upTo_pure ⟨rfl, fun i h2i hi => ?_⟩
      rcases Nat.lt_succ_iff_lt_or_eq.mp hi with hi | rfl
      · exact hz i h2i hi
      · exact hj0
    · rename_i hj0
      refine upTo_pure (upTo_pure ⟨rfl, ?_⟩)
      simp only [Option.isNone_some, Bool.false_eq_true, false_iff]
      exact fun hall => hj0 (hall j h2 (by omega))
  · rintro t ⟨rfl, hz⟩
    refine upTo_pure ⟨rfl, ?_⟩
    simp only [Option.isNone_none, true_iff]
    exact fun i h2 hi => hz i h2 (by omega)

def cleared (F : Nat → FileView) (dp ip k : Nat) : Nat → FileView :=
  let F₁ := Function.update F dp ((F dp).setEnt k Dirent.empty)
  if (F ip).type = .dir then relink F₁ dp (-1) else F₁

def unlinked (F : Nat → FileView) (held : List Nat) (dp ip k : Nat) : Nat → FileView :=
  drop (relink (drop (cleared F dp ip k) (ip :: held) dp) ip (-1)) held ip

theorem unlinkEntry_spec (h : Good sb s (ip :: dp :: refs) [ip, dp]) (hne : ip ≠ dp)
    (hd : (s.files dp).IsDir) (hk : k < (s.files dp).ents.length) :
    WpUpTo A (unlinkEntry sb dp ip (DESIZE * k)) (fun r t => r = 0 ∧ Good sb t refs [] ∧
      t.files = unlinked s.files refs dp ip k) s := by
  have hlip : ip ∈ [ip, dp] := by simp
  have hldp : dp ∈ [ip, dp] := by simp
  refine (writeEnt_spec h hldp hd (Nat.le_of_lt hk) Dirent.valid_empty).bind ?_
  rintro r t ⟨hg, -, -, ⟨rfl, hf⟩ | ⟨-, -, hend, -⟩⟩
  · rw [if_neg (fun hne => hne rfl)]
    apply upTo_bind_get
    have hip : t.files ip = s.files ip := by rw [hf, Function.update_of_ne hne]
    rw [hg.din_type hlip, hip]
    have hrest : ∀ u, Good sb u (ip :: dp :: refs) [ip, dp] → u.files = cleared s.files dp ip k →
        WpUpTo A (do
          iunlockput dp
          addLink ip (-1)
          iunlockput ip
          pure 0) (fun r t => r = (0 : Int) ∧ Good sb t refs [] ∧
            t.files = unlinked s.files refs dp ip k) u := by
      intro u hgu hfu
      have hgu := (hgu.perm (List.Perm.swap _ _ _)).locks (List.Perm.swap _ _ _)
      refine (iunlockput_drop hgu (by simpa using hne.symm)).bind ?_
      rintro _ v ⟨hgv, hfv, -⟩
      refine (addLink_spec hgv List.mem_cons_self (-1)).bind ?_
      rintro _ w ⟨hgw, -, hfw⟩
      refine (iunlockput_drop hgw (by simp)).bind ?_
      rintro _ x ⟨hgx, hfx, -⟩
      refine upTo_pure ⟨rfl, hgx, ?_⟩
      rw [hfx, hfw, hfv, hfu]
      rfl
    dsimp only
    split
    · rename_i hdir
      refine (addLink_spec hg hldp (-1)).bind ?_
      rintro _ u ⟨hgu, -, hfu⟩
      refine hrest u hgu ?_
      rw [hfu, hf, cleared, if_pos hdir]
      rfl
    · rename_i hdir
      refine hrest t hg ?_
      rw [hf, cleared, if_neg hdir]
  · exact absurd hk (by omega)

structure UnlinkMade (s : Fs) (held : List Nat) (dp : Nat) (name : Name) (k : Nat) (t : Fs) :
    Prop where
  parent : (s.files dp).type = .dir
  found : (s.files dp).find name = some k
  notDot : name ≠ dot
  notDotdot : name ≠ dotdot
  typed : (s.files ((s.files dp).ent k).inum).type ≠ .none
  counted : 1 ≤ (s.files ((s.files dp).ent k).inum).nlink
  empty : (s.files ((s.files dp).ent k).inum).type = .dir →
    (s.files ((s.files dp).ent k).inum).Empty
  files : t.files = unlinked s.files held dp ((s.files dp).ent k).inum k

def UnlinkFails (F : Nat → FileView) (cwd : Nat) (path : Path) : Prop :=
  ∀ dp name k, resolve F cwd path true = some (dp, name) → name ≠ dot → name ≠ dotdot →
    (F dp).find name = some k → (F ((F dp).ent k).inum).type = .dir ∧ ¬ (F ((F dp).ent k).inum).Empty

/-- What `sys_unlink` needs of the entry it finds: it does not name its own directory, and
its inode's count covers it, unless what follows from that is allowed. -/
def Removable (A : FsPanic → Prop) (F : Nat → FileView) (cwd : Nat) (path : Path) : Prop :=
  ∀ dp name k, resolve F cwd path true = some (dp, name) → name ≠ dot → name ≠ dotdot →
    (F dp).find name = some k → (((F dp).ent k).inum ≠ dp ∨ A .deadlock) ∧
      (1 ≤ (F ((F dp).ent k).inum).nlink ∨ A .unlinkNlink)

def UnlinkResult (sb : Superblock) (s : Fs) (held : List Nat) (cwd : Nat) (path : Path) (r : Int)
    (t : Fs) : Prop :=
  Good sb t held [] ∧ (r = -1 ∧ t.files = s.files ∧ UnlinkFails s.files cwd path ∨
    r = 0 ∧ ∃ dp name k, resolve s.files cwd path true = some (dp, name) ∧
      UnlinkMade s held dp name k t)

theorem unlinkBad_spec (hg : Good sb t (dp :: refs) [dp]) (hs : SameDisk s t)
    (hk : Spare s.files refs dp) (hfail : UnlinkFails s.files cwd path) :
    WpUpTo A (do
      iunlockput dp
      pure (-1)) (UnlinkResult sb s refs cwd path) t := by
  refine (iunlockput_spare hg (by rwa [hs.files]) (by simp)).bind ?_
  rintro _ u ⟨hgu, hsu⟩
  exact upTo_pure ⟨hgu, .inl ⟨rfl, (hs.trans hsu).files, hfail⟩⟩

theorem unlinkInode_spec (h : Ready sb A s refs cwd) {name : Name}
    (hres : resolve s.files cwd path true = some (dp, name)) (hdir : (s.files dp).type = .dir)
    (hk : Spare s.files refs dp) (hdot : name ≠ dot) (hdotdot : name ≠ dotdot)
    (hfind : (s.files dp).find name = some k) (hip : ((s.files dp).ent k).inum = ip)
    (hne : ip ≠ dp ∨ A .deadlock) (hcount : 1 ≤ (s.files ip).nlink ∨ A .unlinkNlink)
    (hg : Good sb t (ip :: dp :: refs) [dp]) (hs : SameDisk s t) :
    WpUpTo A (unlinkInode sb dp ip (DESIZE * k)) (UnlinkResult sb s refs cwd path) t := by
  obtain ⟨hklt, hmem, hinum, -⟩ := find_some hfind
  have hty : (t.dinode ip).type ≠ .none ∨ A .ilockNoType := by
    rw [← files_type, hs.files]
    rcases h.sound with hno | hpanic
    · exact .inl (hip ▸ hno dp hdir _ hmem hinum)
    · exact .inr hpanic
  have hspare : Spare s.files refs ip := h.good.spare ip
  by_cases heq : ip = dp
  · refine upTo_bind (ilock_deadlock hg List.mem_cons_self (by simp [heq]) ?_)
    exact hne.resolve_left (not_not.mpr heq)
  have hne := heq
  refine (ilock_spec hg List.mem_cons_self (by simpa using hne) hty).bind ?_
  rintro _ w ⟨hgw, hsw, htyped⟩
  rw [← files_type, hs.files] at htyped
  have hsame := hs.trans hsw
  have hlip : ip ∈ [ip, dp] := by simp
  apply upTo_bind_get
  rw [hgw.din_nlink hlip, hgw.din_type hlip, hsame.files]
  split
  · rename_i hlow
    exact upTo_throw (hcount.resolve_left (by omega))
  · rename_i hlow
    have hdone : ((s.files ip).type = .dir → (s.files ip).Empty) →
        WpUpTo A (unlinkEntry sb dp ip (DESIZE * k)) (UnlinkResult sb s refs cwd path) w := by
      intro hempty
      refine (unlinkEntry_spec hgw hne (by rw [hsame.files]; exact h.dirs dp hdir)
        (by rw [hsame.files]; exact hklt)).mono ?_
      rintro _ x ⟨rfl, hgx, hfx⟩
      rw [hsame.files] at hfx
      subst hip
      exact ⟨hgx, .inr ⟨rfl, dp, name, k, hres, hdir, hfind, hdot, hdotdot, htyped, by omega,
        hempty, hfx⟩⟩
    split
    · rename_i hipdir
      refine (isdirempty_spec hgw hlip (by rw [hsame.files]; exact h.dirs ip hipdir)).bind ?_
      rw [hsame.files]
      rintro b x ⟨rfl, hb⟩
      split
      · rename_i hbt
        exact hdone fun _ => hb.mp hbt
      · rename_i hbt
        refine (iunlockput_spare hgw ?_ (by simpa using hne)).bind ?_
        · rw [hsame.files]
          exact fun h1 h2 => List.mem_cons_of_mem _ (hspare h1 h2)
        rintro _ y ⟨hgy, hsy⟩
        refine unlinkBad_spec hgy (hsame.trans hsy) hk ?_
        intro dp' name' k' h1 _ _ h4
        rw [hres, Option.some.injEq, Prod.mk.injEq] at h1
        obtain ⟨rfl, rfl⟩ := h1
        rw [hfind, Option.some.injEq] at h4
        subst h4 hip
        exact ⟨hipdir, fun he => hbt (hb.mpr he)⟩
    · rename_i hipdir
      exact hdone fun hd => absurd hd hipdir

theorem sysUnlink_spec (h : Ready sb A s refs cwd) (hA : Room A (refs.length + 1)) (path : Path)
    (hrem : Removable A s.files cwd path) :
    WpUpTo A (sysUnlink sb cwd path) (UnlinkResult sb s refs cwd path) s := by
  refine (h.nameiparent hA path).bind ?_
  rintro r t ⟨rfl, hs, hfound⟩
  cases hres : resolve s.files cwd path true with
  | none =>
    simp only [hres] at hfound ⊢
    refine upTo_pure ⟨hfound, .inl ⟨rfl, hs.files, fun _ _ _ h1 => ?_⟩⟩
    rw [hres] at h1
    contradiction
  | some e =>
    obtain ⟨dp, name⟩ := e
    simp only [hres] at hfound ⊢
    obtain ⟨hg, hkd, -, hdir'⟩ := hfound
    have hdir : (s.files dp).type = .dir := hdir' trivial
    refine (ilock_spec hg List.mem_cons_self (by simp) (.inl ?_)).bind ?_
    · rw [← files_type, hs.files, hdir]
      decide
    rintro _ u ⟨hgu, hsu, -⟩
    have hsame := hs.trans hsu
    have hl : dp ∈ [dp] := List.mem_cons_self
    split
    · rename_i hdots
      refine unlinkBad_spec hgu hsame hkd fun dp' name' k he h1 h2 => ?_
      rw [hres, Option.some.injEq, Prod.mk.injEq] at he
      obtain ⟨-, rfl⟩ := he
      rcases hdots with hdots | hdots
      · exact absurd hdots h1
      · exact absurd hdots h2
    · rename_i hdots
      push Not at hdots
      refine (dirlookup_spec hgu hl (by rw [hsame.files]; exact h.dirs dp hdir) hA name).bind ?_
      rw [hsame.files]
      rintro r v (⟨rfl, hfind, rfl⟩ | ⟨k, hfind, rfl, hgv, hsv⟩)
      · refine unlinkBad_spec hgu hsame hkd fun dp' name' k he h1 h2 h3 => ?_
        rw [hres, Option.some.injEq, Prod.mk.injEq] at he
        obtain ⟨rfl, rfl⟩ := he
        rw [hfind] at h3
        contradiction
      · obtain ⟨hne, hcount⟩ := hrem dp name k hres hdots.1 hdots.2 hfind
        exact unlinkInode_spec h hres hdir hkd hdots.1 hdots.2 hfind rfl hne hcount hgv
          (hsame.trans hsv)

end Fs

end Xv6
