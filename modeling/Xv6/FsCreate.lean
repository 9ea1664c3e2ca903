import Xv6.FsOps

/-! What `create` does to the inodes. -/

namespace Xv6

open BlockOwner Function StateProg

namespace Fs

variable {sb : Superblock} {A : FsPanic → Prop} {s t : Fs} {ip dp cwd i : Nat} {refs : List Nat}
  {type : FileType} {major minor : Int} {v : FileView} {name : Name}

structure NewInode (dp ip : Nat) (ty : FileType) (major minor : Int) (v : FileView) : Prop where
  type : v.type = ty
  major : v.major = Xv6.short major
  minor : v.minor = Xv6.short minor
  nlink : v.nlink = 1
  dots : ty = .dir → v.IsDir ∧ v.ents = [⟨ip, dot⟩, ⟨dp, dotdot⟩]
  empty : ty ≠ .dir → v.size = 0

def entered (v : FileView) (k ip : Nat) (name : Name) (type : FileType) : FileView :=
  if type = .dir then
    { v.setEnt k ⟨ip, name⟩ with nlink := Xv6.short (v.nlink + 1) }
  else v.setEnt k ⟨ip, name⟩

structure Created (sb : Superblock) (s : Fs) (held : List Nat) (dp : Nat) (name : Name)
    (type : FileType) (major minor : Int) (ip : Nat) (t : Fs) : Prop where
  parent : (s.files dp).type = .dir
  absent : (s.files dp).find name = none
  valid : Name.Valid name
  unused : ip ∉ held
  fresh : (s.files ip).type = .none
  pos : 0 < ip
  lt : ip < sb.ninodes
  entry : ∃ k v, k ≤ (s.files dp).ents.length ∧
    (k < (s.files dp).ents.length → ((s.files dp).ent k).inum = 0) ∧
    NewInode dp ip type major minor v ∧
    t.files = drop (update (update s.files ip v) dp
      (entered (s.files dp) k ip name type)) (ip :: held) dp

theorem files_of_none (h : (s.files ip).type = .none) : s.files ip = FileView.free := by
  rw [files_type] at h
  rw [files, view, if_pos h]

/-- What `create` returns when it tries to make a new inode in directory `dp`. -/
def CreateResult (sb : Superblock) (s : Fs) (held : List Nat) (dp : Nat) (name : Name)
    (type : FileType) (major minor : Int) (r : Option Nat) (t : Fs) : Prop :=
  r = none ∧ Good sb t held [] ∧ t.files = s.files ∧ Attached dp s.slots t.slots ∨
  ∃ ip, r = some ip ∧ Good sb t (ip :: held) [ip] ∧
    Created sb s held dp name type major minor ip t

theorem createFail_spec (hg : Good sb t (ip :: dp :: refs) [ip, dp])
    (hf : t.files = update s.files ip v) (hv : v.type ≠ .none) (hfresh : (s.files ip).type = .none)
    (hne : ip ≠ dp) (hnot : ip ∉ refs) (hk : Spare s.files refs dp)
    (hsl : ∀ p, p.1 ≠ ip → t.slots p = s.slots p ∨ p.1 = dp ∧ s.slots p = 0) :
    WpUpTo A (createFail dp ip) (CreateResult sb s refs dp name type major minor) t := by
  have hl : ip ∈ [ip, dp] := by simp
  apply upTo_bind_modify
  apply upTo_bind_modify
  rw [din_setDin]
  obtain ⟨hg', hf'⟩ := hg.setFields hl (d := { t.din ip with nlink := 0 }) rfl rfl rfl
    (show Xv6.short 0 = 0 by decide)
  refine (iunlockput_drop hg' (by simpa using hne)).bind ?_
  rintro _ u ⟨hgu, hfu, -, hslu⟩
  have hback : u.files = s.files := by
    rw [hfu, hf', drop, if_pos, update_idem, hf, update_idem,
      ← files_of_none hfresh, update_eq_self]
    refine ⟨?_, ?_, ?_⟩
    · rw [update_self, hf, update_self]
      exact hv
    · rw [update_self]
    · simp [hne, hnot]
  refine (iunlockput_spare hgu (by rwa [hback]) (by simp)).bind ?_
  rintro _ w ⟨hgw, hsw⟩
  refine upTo_pure (.inl ⟨rfl, hgw, by rw [hsw.files, hback], fun p => ?_⟩)
  rw [hsw.slots]
  by_cases hp : p.1 = ip
  · obtain ⟨i, k⟩ := p
    obtain rfl : i = ip := hp
    rw [slots, slots, own_of_free (by rw [← files_type, hback, hfresh]),
      own_of_free (by rw [← files_type, hfresh])]
    exact .inl rfl
  · have hset : u.slots p = t.slots p := (hslu p hp).trans (own_update_of_ne hp)
    rw [hset]
    exact hsl p hp

theorem createEnter_spec (hA : Room A (refs.length + 2)) (hdir : (s.files dp).IsDir)
    (habs : (s.files dp).find name = none) (hname : Name.Valid name) (hk : Spare s.files refs dp)
    (hnot : ip ∉ refs) (hfresh : (s.files ip).type = .none) (hpos : 0 < ip) (hlt : ip < sb.ninodes)
    (hv : NewInode dp ip type major minor v) (hty : type ≠ .none)
    (hg : Good sb t (ip :: dp :: refs) [ip, dp]) (hf : t.files = update s.files ip v)
    (hsl : ∀ p, p.1 ≠ ip → t.slots p = s.slots p) :
    WpUpTo A (createEnter sb dp name ip type)
      (CreateResult sb s refs dp name type major minor) t := by
  have hne : ip ≠ dp := by
    rintro rfl
    rw [hdir.type] at hfresh
    contradiction
  have hldp : dp ∈ [ip, dp] := by simp
  have hdp : t.files dp = s.files dp := by rw [hf, update_of_ne hne.symm]
  have hde : (Dirent.mk ip name).Valid := ⟨Nat.lt_of_lt_of_le hlt sb.ninodes_le, hname⟩
  refine (dirlink_spec hg hldp (by rwa [hdp]) hA hde).bind ?_
  rw [hdp]
  rintro r u ⟨hgu, hslu, ⟨rfl, hfu, -⟩ | ⟨rfl, hlink⟩⟩
  · simp only [Bool.false_eq_true, if_false]
    refine createFail_spec hgu (hfu.trans hf) (by rw [hv.type]; exact hty) hfresh hne hnot hk
      fun p hp => ?_
    rw [← hsl p hp]
    exact hslu p
  · obtain ⟨-, k, hk1, hk2, -, hfu⟩ := hlink
    rw [hdp] at hk1 hk2 hfu
    simp only [if_true]
    have hrest : ∀ w, Good sb w (ip :: dp :: refs) [ip, dp] → w.files =
        update (update s.files ip v) dp (entered (s.files dp) k ip name type) →
        WpUpTo A (do
          iunlockput dp
          pure (some ip)) (CreateResult sb s refs dp name type major minor) w := by
      intro w hgw hfw
      have hgw := (hgw.perm (List.Perm.swap _ _ _)).locks (List.Perm.swap _ _ _)
      refine (iunlockput_drop hgw (by simpa using hne.symm)).bind ?_
      rintro _ x ⟨hgx, hfx, -⟩
      refine upTo_pure (.inr ⟨ip, rfl, hgx, hdir.type, habs, hname, hnot, hfresh, hpos, hlt, k, v,
        hk1, hk2, hv, ?_⟩)
      rw [hfx, hfw]
    split
    · rename_i hdirty
      refine (addLink_spec hgu hldp 1).bind ?_
      rintro _ w ⟨hgw, -, hfw⟩
      refine hrest w hgw ?_
      rw [hfw, hfu, update_idem, update_self, hf, entered, if_pos hdirty]
      rfl
    · rename_i hdirty
      refine hrest u hgu ?_
      rw [hfu, hf, entered, if_neg hdirty]

theorem valid_dot (hi : i < 2 ^ 16) : (Dirent.mk i dot).Valid :=
  ⟨hi, show Name.Valid dot from ⟨by decide +kernel, by decide +kernel⟩⟩

theorem valid_dotdot (hi : i < 2 ^ 16) : (Dirent.mk i dotdot).Valid :=
  ⟨hi, show Name.Valid dotdot from ⟨by decide +kernel, by decide +kernel⟩⟩

theorem newDir_ents (hv : v.IsDir) (hz : v.size = 0) (hip : 0 < ip) (hip' : ip < 2 ^ 16)
    (hdp' : dp < 2 ^ 16) : (v.setEnt 0 ⟨ip, dot⟩).IsDir ∧ (v.setEnt 0 ⟨ip, dot⟩).ents.length = 1 ∧
      ((v.setEnt 0 ⟨ip, dot⟩).ent 0).inum ≠ 0 ∧
      ((v.setEnt 0 ⟨ip, dot⟩).setEnt 1 ⟨dp, dotdot⟩).IsDir ∧
      ((v.setEnt 0 ⟨ip, dot⟩).setEnt 1 ⟨dp, dotdot⟩).ents = [⟨ip, dot⟩, ⟨dp, dotdot⟩] := by
  have hlen : v.ents.length = 0 := by rw [FileView.length_ents, hz]; rfl
  have h1 : (v.setEnt 0 ⟨ip, dot⟩).ents = [⟨ip, dot⟩] := by
    have he := FileView.ents_setEnt_end hv.size (valid_dot hip')
    rw [hlen, List.eq_nil_of_length_eq_zero hlen] at he
    exact he
  have hd1 : (v.setEnt 0 ⟨ip, dot⟩).IsDir := by
    refine ⟨hv.type, ?_⟩
    rw [FileView.setEnt_size hv.size (by omega), if_neg (by omega), hz]
    rfl
  have hlen1 : (v.setEnt 0 ⟨ip, dot⟩).ents.length = 1 := by rw [h1]; rfl
  refine ⟨hd1, hlen1, ?_, ⟨hv.type, ?_⟩, ?_⟩
  · rw [← FileView.getElem_ents (by omega)]
    simp only [h1, List.getElem_cons_zero]
    omega
  · rw [FileView.setEnt_size hd1.size (by omega), if_neg (by omega)]
    have := hd1.size
    simp only [DESIZE, DIRSIZ] at this ⊢
    omega
  · have he := FileView.ents_setEnt_end hd1.size (valid_dotdot hdp')
    rw [hlen1, h1] at he
    exact he

theorem createNew_spec (h : Ready sb A s refs cwd) (hA : Room A (refs.length + 2))
    (hdir : (s.files dp).type = .dir) (habs : (s.files dp).find name = none) (hname : Name.Valid name)
    (hk : Spare s.files refs dp) (hty : type ≠ .none ∨ A .ilockNoType)
    (hg : Good sb t (dp :: refs) [dp]) (hs : SameDisk s t) :
    WpUpTo A (createNew sb dp name type major minor)
      (CreateResult sb s refs dp name type major minor) t := by
  have hrefs : ∀ i ∈ dp :: refs, (t.files i).type ≠ .none := by
    intro i hi
    rw [hs.files]
    rcases List.mem_cons.mp hi with rfl | hi
    · rw [hdir]
      decide
    · exact h.typed i hi
  have hdplt : dp < 2 ^ 16 := by
    have hino := h.good.inum dp (by rw [← files_type, hdir]; decide)
    exact Nat.lt_of_lt_of_le hino.2 sb.ninodes_le
  refine (ialloc_spec hg hrefs (hA.mono (Nat.le_succ _)) type).bind ?_
  rintro r u (⟨rfl, rfl⟩ | ⟨ip, rfl, htaken⟩)
  · dsimp only
    refine (iunlockput_spare hg (by rwa [hs.files]) (by simp)).bind ?_
    rintro _ v ⟨hgv, hsv⟩
    exact upTo_pure (.inl ⟨rfl, hgv, (hs.trans hsv).files, (hs.trans hsv).slots ▸ .refl _ _⟩)
  · dsimp only
    have hnot : ip ∉ refs := fun hin => htaken.unused (List.mem_cons_of_mem _ hin)
    have hne : ip ≠ dp := fun he => htaken.unused (he ▸ List.mem_cons_self)
    have hfresh : (s.files ip).type = .none := by rw [← hs.files]; exact htaken.free
    have hiplt : ip < 2 ^ 16 := Nat.lt_of_lt_of_le htaken.lt sb.ninodes_le
    have hlip : ip ∈ [ip, dp] := by simp
    refine (initInode_spec hg hty htaken major minor).bind ?_
    rintro _ w ⟨hgw, hty, hslw, hfw⟩
    rw [hs.files] at hfw
    rw [hs.slots] at hslw
    have henter : ∀ {x : Fs} {v : FileView}, Good sb x (ip :: dp :: refs) [ip, dp] →
        x.files = update s.files ip v → (∀ p, p.1 ≠ ip → x.slots p = s.slots p) →
        NewInode dp ip type major minor v → WpUpTo A (createEnter sb dp name ip type)
          (CreateResult sb s refs dp name type major minor) x :=
      fun hgx hfx hslx hv => createEnter_spec hA (h.dirs dp hdir) habs hname hk hnot hfresh
        htaken.pos htaken.lt hv hty hgx hfx hslx
    have hfail : ∀ {x : Fs} {v : FileView}, Good sb x (ip :: dp :: refs) [ip, dp] →
        x.files = update s.files ip v → (∀ p, p.1 ≠ ip → x.slots p = s.slots p) →
        v.type = type →
        WpUpTo A (createFail dp ip) (CreateResult sb s refs dp name type major minor) x :=
      fun hgx hfx hslx hv => createFail_spec hgx hfx (by rwa [hv]) hfresh hne hnot hk
        fun p hp => .inl (hslx p hp)
    split
    · rename_i hdirty
      subst hdirty
      set v₀ : FileView := ⟨.dir, Xv6.short major, Xv6.short minor, 1, 0, fun _ => 0⟩ with hv₀
      have hwip : w.files ip = v₀ := by rw [hfw, update_self]
      have hd₀ : v₀.IsDir := ⟨rfl, rfl⟩
      obtain ⟨hd₁, hlen₁, hent₁, hd₂, hents₂⟩ :=
        newDir_ents hd₀ rfl htaken.pos hiplt hdplt
      refine (dirlink_spec hgw hlip (by rwa [hwip]) hA (valid_dot hiplt)).bind ?_
      rw [hwip]
      rintro r x ⟨hgx, hax, ⟨rfl, hfx, -⟩ | ⟨rfl, -, k, hk1, -, -, hfx⟩⟩
      all_goals have hslx := fun p hp => (hax.of_ne hp).trans (hslw p hp)
      · exact hfail hgx (hfx.trans hfw) hslx rfl
      · have hk0 : k = 0 := by
          rw [hwip, FileView.length_ents, show v₀.size = 0 from rfl, Nat.zero_div] at hk1
          exact Nat.le_zero.mp hk1
        rw [hwip, hfw, update_idem, hk0] at hfx
        have hxip : x.files ip = v₀.setEnt 0 ⟨ip, dot⟩ := by rw [hfx, update_self]
        simp only [if_true]
        refine (dirlink_spec hgx hlip (by rwa [hxip]) hA (valid_dotdot hdplt)).bind ?_
        rw [hxip]
        rintro r y ⟨hgy, hay, ⟨rfl, hfy, -⟩ | ⟨rfl, -, k, hk1, hk2, -, hfy⟩⟩
        all_goals have hsly := fun p hp => (hay.of_ne hp).trans (hslx p hp)
        · exact hfail hgy (hfy.trans hfx) hsly rfl
        · have hk1 : k = 1 := by
            rw [hxip] at hk1 hk2
            by_contra hne1
            obtain rfl : k = 0 := by omega
            exact hent₁ (hk2 (by omega))
          rw [hxip, hfx, update_idem, hk1] at hfy
          simp only [if_true]
          exact henter hgy hfy hsly ⟨rfl, rfl, rfl, rfl, fun _ => ⟨hd₂, hents₂⟩,
            fun hne => absurd rfl hne⟩
    · rename_i hdirty
      exact henter hgw hfw hslw ⟨rfl, rfl, rfl, rfl, fun hd => absurd hd hdirty, fun _ => rfl⟩

/-- The directory that `path` leads to may have more blocks; no other slot changed. -/
def ParentGrew (s : Fs) (cwd : Nat) (path : Path) (t : Fs) : Prop :=
  ∀ p, t.slots p = s.slots p ∨
    s.slots p = 0 ∧ ∃ name, resolve s.files cwd path true = some (p.1, name)

theorem SameDisk.parentGrew (h : SameDisk s t) (cwd : Nat) (path : Path) :
    ParentGrew s cwd path t := fun _ => .inl (by rw [h.slots])

/-- `create` either fails with nothing changed but the blocks of the parent, or finds a file
that it may return, or makes a new inode. -/
theorem create_spec (h : Ready sb A s refs cwd) (hA : Room A (refs.length + 2)) (path : Path)
    (hty : type ≠ .none ∨ A .ilockNoType) : WpUpTo A (create sb cwd path type major minor) (fun r t =>
      r = none ∧ Good sb t refs [] ∧ t.files = s.files ∧ ParentGrew s cwd path t ∨
      (∃ ip, r = some ip ∧ Good sb t (ip :: refs) [ip] ∧ t.files = s.files ∧ type = .file ∧
        ((s.files ip).type = .file ∨ (s.files ip).type = .device)) ∨
      ∃ ip dp name, r = some ip ∧ Good sb t (ip :: refs) [ip] ∧
        resolve s.files cwd path true = some (dp, name) ∧
        Created sb s refs dp name type major minor ip t) s := by
  refine (h.nameiparent (hA.mono (Nat.le_succ _)) path).bind ?_
  rintro r t ⟨rfl, hs, hfound⟩
  cases hres : resolve s.files cwd path true with
  | none =>
    simp only [hres] at hfound ⊢
    exact upTo_pure (.inl ⟨rfl, hfound, hs.files, hs.parentGrew cwd path⟩)
  | some e =>
    obtain ⟨dp, name⟩ := e
    simp only [hres] at hfound ⊢
    obtain ⟨hg, hkd, -, hdir'⟩ := hfound
    have hdir : (s.files dp).type = .dir := hdir' trivial
    refine (ilock_spec hg List.mem_cons_self (by simp) (.inl ?_)).bind ?_
    · rw [← files_type, hs.files, hdir]
      decide
    rintro _ u ⟨hgu, hsu, -⟩
    have hsame := hs.trans hsu
    refine (dirlookup_spec hgu List.mem_cons_self (by rw [hsame.files]; exact h.dirs dp hdir)
      (hA.mono (Nat.le_succ _)) name).bind ?_
    rw [hsame.files]
    rintro r v (⟨rfl, hfind, rfl⟩ | ⟨k, hfind, rfl, hgv, hsv⟩)
    · refine (createNew_spec h hA hdir hfind (resolve_valid hres) hkd hty hgu hsame).mono ?_
      rintro r w (⟨rfl, hgw, hfw, haw⟩ | ⟨ip, rfl, hgw, hmade⟩)
      · refine .inl ⟨rfl, hgw, hfw, fun p => (haw p).imp_right ?_⟩
        rintro ⟨rfl, hz⟩
        exact ⟨hz, name, hres⟩
      · exact .inr (.inr ⟨ip, dp, name, rfl, hgw, rfl, hmade⟩)
    · obtain ⟨-, hmem, hinum, -⟩ := find_some hfind
      dsimp only
      generalize hip : ((s.files dp).ent k).inum = ip at hgv hinum
      have hsv' := hsame.trans hsv
      have hspare : Spare s.files refs ip := h.good.spare ip
      refine (iunlockput_spare (hgv.perm (List.Perm.swap _ _ _)) ?_ (by simp)).bind ?_
      · rw [hsv'.files]
        exact fun h1 h2 => List.mem_cons_of_mem _ (hkd h1 h2)
      rintro _ w ⟨hgw, hsw⟩
      have hsw' := hsv'.trans hsw
      have hsafe : (w.dinode ip).type ≠ .none ∨ A .ilockNoType := by
        rw [← files_type, hsw'.files]
        rcases h.sound with hno | hpanic
        · exact .inl (hip ▸ hno dp hdir _ hmem (by rwa [hip]))
        · exact .inr hpanic
      refine (ilock_spec hgw List.mem_cons_self (by simp) hsafe).bind ?_
      rintro _ x ⟨hgx, hsx, -⟩
      have hsx' := hsw'.trans hsx
      apply upTo_bind_get
      rw [hgx.din_type List.mem_cons_self, hsx'.files]
      split
      · rename_i hc
        exact upTo_pure (.inr (.inl ⟨ip, rfl, hgx, hsx'.files, hc.1, hc.2⟩))
      · refine (iunlockput_spare hgx (by rwa [hsx'.files]) (by simp)).bind ?_
        rintro _ y ⟨hgy, hsy⟩
        exact upTo_pure (.inl ⟨rfl, hgy, (hsx'.trans hsy).files,
          (hsx'.trans hsy).parentGrew cwd path⟩)

end Fs

end Xv6
