import Xv6.FsKeepLinks

/-! Runs of file system calls. Whatever the calls, and whichever way each of them ends, blocks,
bitmap and addresses stay in step; so do names and link counts, as long as names are made and
removed in directories that have links themselves. -/

namespace Xv6

open BlockOwner Function StateProg

/-- The path whose last element the call may make or remove. -/
def FsCall.edits : FsCall → Option Path
  | .open _ path omode _ => if omode &&& 0x200 ≠ 0 then some path else none
  | .mkdir _ path | .mknod _ path _ _ | .link _ _ path | .unlink _ path => some path
  | _ => none

def FsCall.EditsDir (a : FsCall) (F : Nat → FileView) (dp : Nat) : Prop :=
  ∃ path name, a.edits = some path ∧ Fs.resolve F a.uses path true = some (dp, name)

/-- The panics that a call may end in. -/
abbrev FsPanic.Stops (e : FsPanic) : Prop := e ∈ [igetNoInodes, ilockNoType, deadlock, unlinkNlink]

namespace Fs

open FsPanic

variable {sb : Superblock} {A : FsPanic → Prop} {s t u : Fs} {ip cwd dp i N : Nat}
  {held refs lk : List Nat} {F G H : Nat → FileView} {a : FsCall} {v : FileView}

/-- What a call does to names. -/
inductive Named (sb : Superblock) (s : Fs) (held : List Nat) (a : FsCall) (t : Fs) : Prop
  | same (files : t.files = s.files)
  | linked {ip dp : Nat} {name : Name} (dir : a.EditsDir s.files dp) (made : LinkMade sb s held ip dp name t)
  | unlinked {dp k : Nat} {name : Name} (dir : a.EditsDir s.files dp) (made : UnlinkMade s held dp name k t)
  | created {ip dp : Nat} {name : Name} {type : FileType} {major minor : Int}
    (dir : a.EditsDir s.files dp) (typed : type ≠ .none)
    (made : Created sb s held dp name type major minor ip t)

/-- What a call may do at its end: put an inode, or write or cut off a file. -/
inductive Ended (held : List Nat) (F : Nat → FileView) : (Nat → FileView) → Prop
  | same : Ended held F F
  | dropped (i : Nat) : Ended held F (drop F held i)
  | file {i : Nat} {v : FileView} (old : (F i).type = .file) (new : v.type = .file)
    (nlink : v.nlink = (F i).nlink) : Ended held F (update F i v)

/-- The state after a call, which leaves processes with the references `held'`. -/
structure Called (sb : Superblock) (s : Fs) (held : List Nat) (a : FsCall) (held' : List Nat) (t : Fs) :
    Prop where
  good : Good sb t held' []
  typed : ∀ i ∈ held', i ∉ held → (t.files i).type ≠ .none
  files : ∃ u, Named sb s held a u ∧ Ended held' u.files t.files

theorem Called.of_named (hg : Good sb t held []) (hn : Named sb s held a u)
    (he : Ended held u.files t.files) : Called sb s held a held t :=
  ⟨hg, fun _ hi hnot => absurd hi hnot, u, hn, he⟩

theorem Called.of_same (hg : Good sb t held []) (hf : t.files = s.files) : Called sb s held a held t :=
  .of_named hg (.same hf) .same

theorem drop_of_mem (hi : i ∈ refs) (j : Nat) : drop F refs j i = F i := by
  unfold drop
  split
  · rename_i hc
    refine update_of_ne ?_ ..
    rintro rfl
    exact hc.2.2 hi
  · rfl

theorem Good.truncated (h : Good sb s refs lk) (hl : ip ∈ lk) (ht : Truncated sb ip s t)
    (hfile : (s.files ip).type = .file) :
    Good sb t refs lk ∧ Ended refs s.files t.files ∧ (t.files ip).type = .file := by
  have hd := h.locked_din hl
  have htype : (t.din ip).type = .file := by rw [ht.same.type, hd, ← files_type, hfile]
  have hnlink : (t.din ip).nlink = (s.dinode ip).nlink := by rw [ht.same.nlink, hd]
  have hfiles : t.files = update s.files ip (view s.data (t.din ip)) := by
    unfold files
    rw [ht.dinode, ht.data]
    exact files_update rfl
  have hview : (view s.data (t.din ip)).type = .file := by rw [view_type, htype]
  refine ⟨h.setInode hl ht.blocks ht.dinode ht.itable (by rw [htype]; decide) ?_, ?_, ?_⟩
  · rw [hnlink]
    exact h.short ip
  · rw [hfiles]
    refine .file hfile hview ?_
    rw [view, if_neg (by rw [htype]; decide), files_nlink (by rw [← files_type, hfile]; decide)]
    exact hnlink
  · rw [hfiles, update_self, hview]

/-- `sys_open` and `sys_chdir` lock the inode of a path, and put it if they cannot use it. -/
theorem namei_ilock_spec {bad : Nat → Fs → Prop} [∀ ip t, Decidable (bad ip t)] {f : Nat → FsM (Option Nat)}
    {Q : Option Nat → Fs → Prop} (h : Ready sb Stops s held cwd) (path : Path)
    (hnone : ∀ t, Good sb t held [] → t.files = s.files → Q none t)
    (hsome : ∀ ip t, Good sb t (ip :: held) [ip] → t.files = s.files → ¬ bad ip t →
      WpUpTo Stops (f ip) Q t) :
    WpUpTo Stops (do
      match ← namei sb cwd path with
      | none => pure none
      | some ip =>
        ilock ip
        let t ← get
        if bad ip t then
          iunlockput ip
          pure none
        else f ip) Q s := by
  refine (h.namei (.inl (by decide)) path).bind ?_
  rintro r t ⟨-, hs, hfound⟩
  cases r with
  | none => exact upTo_pure (hnone t hfound hs.files)
  | some ip =>
    obtain ⟨hg, hk, hty⟩ := hfound
    refine (ilock_spec hg List.mem_cons_self (by simp) (by rwa [← files_type, hs.files])).bind ?_
    rintro _ u ⟨hgu, hsu, -⟩
    have hsame := hs.trans hsu
    apply upTo_bind_get
    split
    · refine (iunlockput_spare hgu (by rwa [hsame.files]) (by simp)).bind ?_
      rintro _ v ⟨hgv, hsv⟩
      exact upTo_pure (hnone v hgv (hsame.trans hsv).files)
    · exact hsome ip u hgu hsame.files ‹_›

/-- What `create` returns, and `sys_open` once it has the inode. -/
def Got (sb : Superblock) (s : Fs) (held : List Nat) (a : FsCall) (r : Option Nat) (t : Fs) : Prop :=
  r = none ∧ Good sb t held [] ∧ t.files = s.files ∨
    ∃ ip, r = some ip ∧ Good sb t (ip :: held) [ip] ∧ Named sb s held a t

theorem create_got {path : Path} {type : FileType} {major minor : Int}
    (h : Ready sb Stops s held a.uses) (hty : type ≠ .none) (hedits : a.edits = some path) :
    WpUpTo Stops (create sb a.uses path type major minor) (Got sb s held a) s := by
  refine (create_spec h (.inl (by decide)) path (.inl hty)).mono ?_
  rintro r t (⟨rfl, hg, hf, -⟩ | ⟨ip, rfl, hg, hf, -⟩ | ⟨ip, dp, name, rfl, hg, hres, hm⟩)
  · exact .inl ⟨rfl, hg, hf⟩
  · exact .inr ⟨ip, rfl, hg, .same hf⟩
  · exact .inr ⟨ip, rfl, hg, .created ⟨path, name, hedits, hres⟩ hty hm⟩

theorem openInode_spec (h : Ready sb Stops s held cwd) (path : Path) (omode : Nat) (room : Bool) :
    WpUpTo Stops (openInode sb cwd path omode) (Got sb s held (.open cwd path omode room)) s := by
  unfold openInode
  split
  · exact create_got (a := .open cwd path omode room) h (by decide) (if_pos ‹_›)
  · exact namei_ilock_spec h path (fun t hg hf => .inl ⟨rfl, hg, hf⟩)
      fun ip t hg hf _ => upTo_pure (Or.inr ⟨ip, rfl, hg, .same hf⟩)

theorem Called.locked (hg : Good sb t (ip :: held) []) (ht : (t.files ip).type ≠ .none)
    (hn : Named sb s held a u) (he : Ended (ip :: held) u.files t.files) :
    Called sb s held a (ip :: held) t := by
  refine ⟨hg, fun i hi hnot => ?_, u, hn, he⟩
  rwa [(List.mem_cons.mp hi).resolve_right hnot]

theorem sysOpen_spec (h : Ready sb Stops s held cwd) (path : Path) (omode : Nat) (room : Bool) :
    WpUpTo Stops (sysOpen sb cwd path omode room) (fun r =>
      Called sb s held (.open cwd path omode room) (r.elim held (· :: held))) s := by
  refine (openInode_spec h path omode room).bind ?_
  rintro r t (⟨rfl, hg, hf⟩ | ⟨ip, rfl, hg, hn⟩)
  · exact upTo_pure (.of_same hg hf)
  have hl : ip ∈ [ip] := List.mem_cons_self
  have hdone : ∀ u, Good sb u (ip :: held) [ip] → Ended (ip :: held) t.files u.files →
      (u.files ip).type ≠ .none → WpUpTo Stops (do
        iunlock ip
        pure (some ip)) (fun r =>
          Called sb s held (.open cwd path omode room) (r.elim held (· :: held))) u := by
    intro u hgu hfu htu
    refine (iunlock_spec hgu (by simp)).bind ?_
    rintro _ v ⟨hgv, hsv⟩
    rw [← hsv.files] at hfu htu
    exact upTo_pure (.locked hgv htu hn hfu)
  apply upTo_bind_get
  dsimp only
  split
  · refine (iunlockput_drop hg (by simp)).bind ?_
    rintro _ u ⟨hgu, hfu, -⟩
    exact upTo_pure (.of_named hgu hn (hfu ▸ .dropped ip))
  · rw [hg.din_type hl]
    split
    · rename_i htrunc
      refine (itrunc_spec (hg.locked_blocks hl) (hg.locked_typed hl)).bind ?_
      rintro _ u hu
      obtain ⟨hgu, hfu, htu⟩ := hg.truncated hl hu htrunc.2
      exact hdone u hgu hfu (by rw [htu]; decide)
    · exact hdone t hg .same (hg.din_type hl ▸ hg.locked_typed hl)

theorem made_called {path : Path} {type : FileType} {major minor : Int}
    (h : Ready sb Stops s held a.uses) (hty : type ≠ .none) (hedits : a.edits = some path) :
    WpUpTo Stops (do
      match ← create sb a.uses path type major minor with
      | none => pure (-1 : Int)
      | some ip =>
        iunlockput ip
        pure 0) (fun _ => Called sb s held a held) s := by
  refine (create_got h hty hedits).bind ?_
  rintro r t (⟨rfl, hg, hf⟩ | ⟨ip, rfl, hg, hn⟩)
  · exact upTo_pure (.of_same hg hf)
  · refine (iunlockput_drop hg (by simp)).bind ?_
    rintro _ u ⟨hgu, hfu, -⟩
    exact upTo_pure (.of_named hgu hn (hfu ▸ .dropped ip))

theorem sysChdir_spec (h : Ready sb Stops s held cwd) (path : Path) :
    WpUpTo Stops (sysChdir sb cwd path) (fun r =>
      Called sb s held (.chdir cwd path) (r.elim held (· :: held.erase cwd))) s := by
  refine namei_ilock_spec h path (fun t hg hf => .of_same hg hf) fun ip t hg hf hdir => ?_
  rw [not_not, hg.din_type List.mem_cons_self, hf] at hdir
  refine (iunlock_spec hg (by simp)).bind ?_
  rintro _ u ⟨hgu, hsu⟩
  have hfu := hsu.files.trans hf
  have hperm : (ip :: held).Perm (cwd :: ip :: held.erase cwd) :=
    ((List.perm_cons_erase h.cwd).cons ip).trans (List.Perm.swap ..)
  refine (iput_drop (hgu.perm hperm) (by simp)).bind ?_
  rintro _ v ⟨hgv, hfv, -⟩
  refine upTo_pure ⟨hgv, fun i hi hnot => ?_, u, .same hfu, hfv ▸ .dropped cwd⟩
  obtain rfl := (List.mem_cons.mp hi).resolve_right fun hc => hnot (List.mem_of_mem_erase hc)
  rw [hfv, drop_of_mem List.mem_cons_self, hfu, hdir]
  decide

theorem writeFile_spec (h : Good sb s held []) (hr : ip ∈ held) (hfile : (s.files ip).type = .file)
    (src : List UInt8) (off n : Nat) : WpUpTo A (writeFile sb ip src off n)
      (fun _ t => Good sb t held [] ∧ Ended held s.files t.files) s := by
  refine (ilock_spec h hr (by simp) (.inl (by rw [← files_type, hfile]; decide))).bind ?_
  rintro _ t ⟨hg, hs, -⟩
  have hl : ip ∈ [ip] := List.mem_cons_self
  have hwrite : WpUpTo A (writei sb ip src off n)
      (fun _ u => Good sb u held [ip] ∧ Ended held s.files u.files) t := by
    refine (writei_spec (hg.locked_blocks hl) (hg.locked_typed hl) src off n).mono ?_
    rintro r u (⟨-, rfl, -⟩ | ⟨m, w, -, -, -, -, -, -, hw⟩)
    · exact ⟨hg, hs.files ▸ .same⟩
    · obtain ⟨hgu, hfu⟩ := hg.written hl hw
      rw [hs.files] at hfu
      exact ⟨hgu, hfu ▸ .file hfile hfile rfl⟩
  refine hwrite.bind ?_
  rintro r u ⟨hgu, hfu⟩
  refine (iunlock_spec hgu (by simp)).bind ?_
  rintro _ v ⟨hgv, hsv⟩
  exact upTo_pure ⟨hgv, hsv.files ▸ hfu⟩

theorem exec_called (h : Ready sb Stops s held a.uses) :
    WpUpTo Stops (a.exec sb held) (Called sb s held a) s := by
  cases a with
  | «open» cwd path omode room =>
    refine (sysOpen_spec h path omode room).bind ?_
    rintro (_ | ip) t hc <;> exact upTo_pure hc
  | mkdir | mknod => exact (made_called h (by decide) rfl).bind fun _ _ hc => upTo_pure hc
  | link cwd old new =>
    refine (sysLink_spec h (.inl (by decide)) old new).bind ?_
    rintro r t ⟨hg, ⟨-, hf, -⟩ | ⟨-, ip, m, dp, name, -, hres, hm⟩⟩
    · exact upTo_pure (.of_same hg hf)
    · exact upTo_pure (.of_named hg (.linked ⟨new, name, rfl, hres⟩ hm) .same)
  | unlink cwd path =>
    have hrem : Removable Stops s.files cwd path :=
      fun _ _ _ _ _ _ _ => ⟨.inr (by decide), .inr (by decide)⟩
    refine (sysUnlink_spec h (.inl (by decide)) path hrem).bind ?_
    rintro r t ⟨hg, ⟨-, hf, -⟩ | ⟨-, dp, name, k, hres, hm⟩⟩
    · exact upTo_pure (.of_same hg hf)
    · exact upTo_pure (.of_named hg (.unlinked ⟨path, name, rfl, hres⟩ hm) .same)
  | chdir cwd path =>
    refine (sysChdir_spec h path).bind ?_
    rintro (_ | ip) t hc <;> exact upTo_pure hc
  | dup ip =>
    refine (idup_spec h.good h.cwd).bind ?_
    rintro _ t ⟨-, hg, hs⟩
    exact upTo_pure (.locked hg (hs.files ▸ h.typed _ h.cwd) (.same hs.files) .same)
  | put ip =>
    refine (iput_drop (h.good.perm (List.perm_cons_erase h.cwd)) (by simp)).bind ?_
    rintro _ t ⟨hg, hf, -⟩
    refine upTo_pure ⟨hg, fun i hi hnot => absurd (List.mem_of_mem_erase hi) hnot, s, .same rfl, ?_⟩
    exact hf ▸ .dropped ip
  | write ip src off n =>
    apply upTo_bind_get
    split
    · rename_i hfile
      refine (writeFile_spec h.good h.cwd (by rwa [files_type]) src off n).bind ?_
      rintro r t ⟨hg, he⟩
      exact upTo_pure (.of_named hg (.same rfl) he)
    · exact upTo_pure (.of_same h.good rfl)

/-- Directories stay arrays of entries, and the inodes of `held` that are in use stay so. -/
def Stays (held : List Nat) (F G : Nat → FileView) : Prop :=
  (Dirs F → Dirs G) ∧ ∀ i ∈ held, (F i).type ≠ .none → (G i).type ≠ .none

theorem Stays.trans (h : Stays held F G) (h' : Stays held G H) : Stays held F H :=
  ⟨h'.1 ∘ h.1, fun i hi ht => h'.2 i hi (h.2 i hi ht)⟩

theorem Stays.update (hd : v.type = .dir → v.IsDir) (ht : (F i).type ≠ .none → v.type ≠ .none) :
    Stays held F (Function.update F i v) := by
  refine ⟨fun h => h.update i hd, fun j _ hj => ?_⟩
  by_cases hi : j = i
  · rw [hi] at hj
    rw [hi, update_self]
    exact ht hj
  · rwa [update_of_ne hi]

theorem Stays.setDir (hv : v.IsDir) : Stays held F (Function.update F i v) :=
  .update (fun _ => hv) fun _ => by rw [hv.type]; decide

theorem Stays.relink (i : Nat) (d : Int) : Stays held F (Fs.relink F i d) :=
  ⟨fun h => h.relink i d, fun j _ hj => by rwa [(sameTree_relink F i d j).1]⟩

theorem Stays.drop (hsub : held ⊆ refs) (j : Nat) : Stays held F (Fs.drop F refs j) :=
  ⟨fun h => h.drop refs j, fun i hi ht => by rwa [drop_of_mem (hsub hi)]⟩

theorem Stays.cleared (hd : Dirs F) (hdp : (F dp).type = .dir) {k : Nat} (hk : k ≤ (F dp).ents.length) :
    Stays held F (Fs.cleared F dp ip k) := by
  have hset : Stays held F (Function.update F dp ((F dp).setEnt k Dirent.empty)) :=
    .setDir (FileView.setEnt_isDir (hd _ hdp) hk _)
  unfold Fs.cleared
  split
  · exact hset.trans (.relink _ _)
  · exact hset

theorem Named.stays (h : Named sb s held a u) (hd : Dirs s.files) : Stays held s.files u.files := by
  cases h with
  | same hf =>
    rw [hf]
    exact ⟨id, fun _ _ => id⟩
  | linked dir hm =>
    obtain ⟨k, hk, -, -, hf⟩ := hm.entry
    rw [hf]
    exact ((Stays.relink _ 1).trans (.setDir (FileView.setEnt_isDir (hd _ hm.parent) hk _))).trans
      (.drop (fun _ => id) _)
  | unlinked dir hm =>
    rw [hm.files]
    exact (((Stays.cleared hd hm.parent (find_some hm.found).1.le).trans
      (.drop (List.subset_cons_self _ _) _)).trans (.relink _ _)).trans (.drop (fun _ => id) _)
  | created dir typed hm =>
    obtain ⟨k, v, hk, -, hv, hf⟩ := hm.entry
    rw [hf]
    exact ((Stays.update (fun ht => (hv.dots (hv.type ▸ ht)).1) fun ht => absurd hm.fresh ht).trans
      (.setDir (entered_isDir (hd _ hm.parent) hk _ _ _))).trans (.drop (List.subset_cons_self _ _) _)

theorem Ended.stays (h : Ended held F G) : Stays held F G := by
  cases h with
  | same => exact ⟨id, fun _ _ => id⟩
  | dropped i => exact .drop (fun _ => id) i
  | file hF hv hn => exact .update (fun ht => absurd (hv.symm.trans ht) (by decide)) fun _ => by rw [hv]; decide

/-- The contents of a file do not matter to names. -/
theorem Namespace.setFile (h : Namespace N F) (hF : (F i).type = .file) (hv : v.type = .file)
    (hn : v.nlink = (F i).nlink) : Namespace N (update F i v) := by
  have hnot : ∀ {d}, (F d).type = .dir → d ≠ i := by
    rintro d hd rfl
    rw [hF] at hd
    cases hd
  have htype : ∀ j, (update F i v j).type = (F j).type ∧ (update F i v j).nlink = (F j).nlink := by
    intro j
    by_cases hj : j = i
    · rw [hj, update_self, hv, hF]
      exact ⟨rfl, hn⟩
    · rw [update_of_ne hj]
      exact ⟨rfl, rfl⟩
  have hlink : ∀ d, LinkedDir (update F i v) d ↔ LinkedDir F d := fun d => by
    rw [LinkedDir, LinkedDir, (htype d).1, (htype d).2]
  have hnames : ∀ j, names N (update F i v) j = names N F j := fun j =>
    names_congr fun e => share_congr (hlink e) fun hl => by rw [update_of_ne (hnot hl.1)]
  -- A slot past the end of what a directory would have there is edited.
  have hedit : Edited F i ((F i).ents.length + 2) Dirent.empty (update F i v) := by
    refine ⟨fun j => (htype j).1, fun d hd j => ?_⟩
    rw [if_neg fun hc => hnot hd hc.1, update_of_ne (hnot hd)]
  refine h.of_edit hedit (Nat.le_add_left ..) hlink
    (h.dirs.update i fun hd => absurd (hv.symm.trans hd) (by decide)) (absurd rfl)
    (absurd rfl) (fun c hc => ?_) ⟨fun j hj => ?_, fun j hj => ?_⟩
  · exact absurd (FileView.names_iff.mp hc).2.1 (by omega)
  · rw [(htype j).1] at hj
    rw [(htype j).2, hnames, h.counted.nlink j hj]
  · rw [(htype j).1] at hj
    rw [hnames]
    exact h.counted.bound j hj

theorem Named.namespace (h : Named sb s held a u) (hs : Namespace sb.ninodes s.files)
    (hlinked : ∀ dp, a.EditsDir s.files dp → (s.files dp).nlink ≠ 0)
    (hend : ∀ i, (s.files i).type ≠ .none → (s.files i).nlink ≠ -1) : Namespace sb.ninodes u.files := by
  have hb : ∀ {i}, (s.files i).type ≠ .none → names sb.ninodes s.files i + 1 < 2 ^ 16 := by
    intro i ht
    have hlt := hs.counted.bound i ht
    by_contra hge
    apply hend i ht
    rw [hs.counted.nlink i ht, show names sb.ninodes s.files i = 65535 by omega]
    decide
  cases h with
  | same hf => rwa [hf]
  | linked dir hm => exact (hs.linkMade ⟨hm.parent, hlinked _ dir⟩ hm (hb hm.typed)).1
  | unlinked dir hm => exact (hs.unlinkMade ⟨hm.parent, hlinked _ dir⟩ hm rfl).1
  | created dir typed hm =>
    have hdp : LinkedDir s.files _ := ⟨hm.parent, hlinked _ dir⟩
    exact (hs.created typed hdp hm fun _ => hb hdp.typed).1

theorem Ended.namespace (h : Ended held F G) (hF : Namespace N F) : Namespace N G := by
  cases h with
  | same => exact hF
  | dropped i => exact (hF.drop held i).1
  | file hF' hv hn => exact hF.setFile hF' hv hn

end Fs

namespace FsSys

open ActionRun Fs FsPanic

variable {sb : Superblock} {w : FsSys} {a : FsCall}

/-- Blocks and inode table are in order, directories are arrays of entries, and processes refer to
inodes in use. -/
structure WellFormed (sb : Superblock) (w : FsSys) : Prop where
  good : Good sb w.fs w.held []
  dirs : Dirs w.fs.files
  typed : ∀ i ∈ w.held, (w.fs.files i).type ≠ .none

theorem WellFormed.of_called {held : List Nat} {t : Fs} (h : w.WellFormed sb)
    (hc : Called sb w.fs w.held a held t) : WellFormed sb ⟨t, held⟩ := by
  obtain ⟨u, hn, he⟩ := hc.files
  have hu := hn.stays h.dirs
  refine ⟨hc.good, he.stays.1 (hu.1 h.dirs), fun i hi => ?_⟩
  by_cases hw : i ∈ w.held
  · exact he.stays.2 i hi (hu.2 i hw (h.typed i hw))
  · exact hc.typed i hi hw

theorem WellFormed.step_ends (h : w.WellFormed sb) (a : FsCall) :
    Ends (fun x => x = w ∨ Called sb w.fs w.held a x.held x.fs) Stops (step sb w a) := by
  rw [step]
  by_cases hin : a.uses ∈ w.held
  · rw [if_pos hin]
    have hspec := exec_called (a := a)
      ⟨h.good, h.dirs, .inr (by decide), h.typed, hin, .inr (by decide)⟩
    cases hrun : a.exec sb w.held w.fs with
    | error e => exact hspec.error hrun
    | ok r => exact .inr (hspec.ok hrun)
  · rw [if_neg hin]
    exact .inl rfl

theorem WellFormed.run (h : w.WellFormed sb) (calls : List FsCall) :
    Ends (WellFormed sb) Stops (ActionRun.run (FsSys.step sb) w calls) := by
  refine run_ends (fun v a hv _ => (hv.step_ends a).mono ?_) h
    (along_of_mem (fun _ _ _ => trivial) w)
  rintro x (rfl | hc)
  · exact hv
  · exact hv.of_called hc

/-- In every state that calls lead to from a well-formed file system, each block number stored in an
inode in use or its indirect block is that of a data block, stored nowhere else and marked in the
bitmap, each marked data block is stored, and no file has a hole. Calls panic only on a full inode
table, an entry for a free inode, a directory that names itself or a count below 1. -/
theorem blocks_owned_in_runs (h : w.WellFormed sb) (calls : List FsCall) :
    Ends (fun x => Blocks sb x.fs.bitmap x.fs.data x.fs.dinode) Stops
      (run (FsSys.step sb) w calls) :=
  (h.run calls).mono fun _ hx => hx.good.blocks

theorem mkfsImage_wellFormed : WellFormed mkfsSuper ⟨mkfsImage, [ROOTINO]⟩ :=
  ⟨mkfsImage_good, mkfsImage_fresh.dirs, mkfsImage_accurate.typed⟩

theorem blocks_owned_in_runs_mkdir : ∃ x,
    run (FsSys.step mkfsSuper) ⟨mkfsImage, [ROOTINO]⟩ [.mkdir ROOTINO pathD] = .ok x ∧
    x.fs.bitmap (nmeta + 1) = true ∧ Blocks mkfsSuper x.fs.bitmap x.fs.data x.fs.dinode := by
  obtain ⟨x, hrun, hnew⟩ := Ends.exists_ok (P := fun x : FsSys => x.fs.bitmap (nmeta + 1) = true)
    (r := run (FsSys.step mkfsSuper) ⟨mkfsImage, [ROOTINO]⟩ [.mkdir ROOTINO pathD]) (by decide +kernel)
  have h := mkfsImage_wellFormed
  exact ⟨x, hrun, hnew, (blocks_owned_in_runs h _).of_ok hrun⟩

/-- An inode in use with no links is held by a process. -/
theorem orphans_held_in_runs (h : w.WellFormed sb) (calls : List FsCall) :
    Ends (fun x => ∀ i, (x.fs.dinode i).type ≠ .none → (x.fs.dinode i).nlink = 0 → i ∈ x.held)
      Stops (run (FsSys.step sb) w calls) :=
  (h.run calls).mono fun _ hx i ht hn => (hx.good.orphan i ht hn).1

/-- A file is removed while it is open. -/
def openUnlink : List FsCall := [.open ROOTINO pathA 0 true, .unlink ROOTINO pathA]

theorem orphans_held_in_runs_unlink : ∃ x,
    run (FsSys.step mkfsSuper) ⟨mkfsImage, [ROOTINO]⟩ openUnlink = .ok x ∧
    (x.fs.dinode 2).type ≠ .none ∧ (x.fs.dinode 2).nlink = 0 ∧ 2 ∈ x.held := by
  obtain ⟨x, hrun, ht, hn⟩ := Ends.exists_ok (P := fun x : FsSys => (x.fs.dinode 2).type ≠ .none ∧
    (x.fs.dinode 2).nlink = 0) (r := run (FsSys.step mkfsSuper) ⟨mkfsImage, [ROOTINO]⟩ openUnlink)
    (by decide +kernel)
  have h := mkfsImage_wellFormed
  exact ⟨x, hrun, ht, hn, (orphans_held_in_runs h _).of_ok hrun 2 ht hn⟩

def pathDE : Path := ⟨[100, 47, 101], by decide +kernel, by decide +kernel⟩

/-- A directory and the one in it are removed, while the inner one is a current directory. -/
def removeParent : List FsCall :=
  [.dup ROOTINO, .mkdir ROOTINO pathD, .chdir ROOTINO pathD, .mkdir 3 pathE, .chdir 3 pathE,
    .unlink ROOTINO pathDE, .unlink ROOTINO pathD]

/-- In a removed directory `..` may name a free inode, and `namei("../a")` does not return. -/
theorem namex_panics_in_removed_dir : ∃ x,
    run (FsSys.step mkfsSuper) ⟨mkfsImage, [ROOTINO]⟩ removeParent = .ok x ∧ x.WellFormed mkfsSuper ∧
    4 ∈ x.held ∧ lookup x.fs.files 4 dotdot = some 3 ∧ (x.fs.dinode 3).type = .none ∧
    ∀ r, namex mkfsSuper 4 (dotdot ++ slash :: fileName) false x.fs ≠ .ok r := by
  obtain ⟨x, hrun, hheld, hup, hfree, herr⟩ := Ends.exists_ok (P := fun x : FsSys => 4 ∈ x.held ∧
    lookup x.fs.files 4 dotdot = some 3 ∧ (x.fs.dinode 3).type = .none ∧
    (namex mkfsSuper 4 (dotdot ++ slash :: fileName) false x.fs).toOption.isNone = true)
    (r := run (FsSys.step mkfsSuper) ⟨mkfsImage, [ROOTINO]⟩ removeParent) (by decide +kernel)
  have h := mkfsImage_wellFormed
  refine ⟨x, hrun, (h.run _).of_ok hrun, hheld, hup, hfree, fun r hr => ?_⟩
  rw [hr] at herr
  cases herr

/-- The call makes and removes names only in a directory with links, and no count is at its end. -/
def Tidy (w : FsSys) (a : FsCall) : Prop :=
  (∀ dp, a.EditsDir w.fs.files dp → (w.fs.files dp).nlink ≠ 0) ∧
    ∀ i, (w.fs.files i).type ≠ .none → (w.fs.files i).nlink ≠ -1

/-- As long as names are made and removed in directories with links, the counts are the numbers of
names, every directory with links is reached from the root, its `..` names its parent, and none of
its entries names a free inode. -/
theorem names_counted_in_runs (h : w.WellFormed sb) (hn : Namespace sb.ninodes w.fs.files)
    (calls : List FsCall) (hal : Along (FsSys.step sb) Tidy w calls) :
    Ends (fun x => Namespace sb.ninodes x.fs.files) Stops (run (FsSys.step sb) w calls) := by
  have hstep : ∀ w a, w.WellFormed sb ∧ Namespace sb.ninodes w.fs.files → w.Tidy a →
      Ends (fun x => x.WellFormed sb ∧ Namespace sb.ninodes x.fs.files) Stops (step sb w a) := by
    rintro w a ⟨h, hn⟩ ht
    refine (h.step_ends a).mono ?_
    rintro x (rfl | hc)
    · exact ⟨h, hn⟩
    · obtain ⟨u, hu, he⟩ := hc.files
      exact ⟨h.of_called hc, he.namespace (hu.namespace hn ht.1 ht.2)⟩
  exact (run_ends hstep ⟨h, hn⟩ hal).mono fun _ => And.right

theorem names_counted_in_runs_mkdir : Ends (fun x => Namespace mkfsSuper.ninodes x.fs.files)
    Stops (run (FsSys.step mkfsSuper) ⟨mkfsImage, [ROOTINO]⟩ [.mkdir ROOTINO pathD]) := by
  have h := mkfsImage_wellFormed
  have hn := mkfsImage_accurate.namespace
  have ht : Tidy ⟨mkfsImage, [ROOTINO]⟩ (.mkdir ROOTINO pathD) := by
    refine ⟨?_, fun i hi => ?_⟩
    · rintro dp ⟨path, name, -, hres⟩
      exact mkfsImage_fresh.parent_linked hres
    · rw [mkfsImage_fresh.nlink i hi]
      decide
  generalize mkfsImage = s at h hn ht ⊢
  exact names_counted_in_runs h hn _ ⟨ht, fun _ _ => trivial⟩

end FsSys

end Xv6
