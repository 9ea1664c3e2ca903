import Xv6.FileRefs

/-! Every step of a call on files keeps the references in order. -/

namespace Xv6.Ftable

open ActionRun Claims Function

variable {P : Type*} {o : Ofile} {fd : Fd}

theorem argfd_eq {n : Int} {f : FileId} (h : FileTable.argfd o n = some (fd, f)) : o fd = some f := by
  unfold FileTable.argfd at h
  split at h
  · obtain ⟨g, hg, he⟩ := Option.map_eq_some_iff.mp h
    cases he
    exact hg
  · cases h

theorem fdalloc_eq (h : FileTable.fdalloc o = some fd) : o fd = none := by
  have hn := List.find?_some h
  simpa using hn

theorem freeFile_eq [DecidableEq P] {s : FileTable P} {f : FileId} (h : s.freeFile = some f) :
    (s.file f).ref = 0 := by
  have hn := List.find?_some h
  simpa using hn

namespace Inv

variable [Fintype P] [DecidableEq P] {s s' : FileTable P} {p q c : P} {x : ProcFiles P} {f : FileId}
  {r : Int} {y : File} {pc : FilePc P} {fd old : Fd}

structure Plain (x : ProcFiles P) : Prop where
  held : x.pc.held = []
  void : x.void = none
  claim : x.pc.claim = none
  child : ∀ q, x.pc ≠ .embryo q

omit [Fintype P] [DecidableEq P] in
theorem Plain.share_eq (hx : Plain x) (g : FileId) : share x g = fds x.ofile g := by
  rw [share, hx.held, hx.void, one_none, List.count_nil]
  omega

omit [Fintype P] [DecidableEq P] in
theorem plain_user (hp : x.pc = .user r) : Plain x :=
  ⟨by rw [hp]; rfl, by rw [ProcFiles.void, hp], by rw [hp]; rfl, by simp [hp]⟩

theorem setPc (h : Inv s) (hp : Plain (s.proc p)) (hx : Plain ⟨(s.proc p).ofile, pc⟩)
    (hok : ProcFiles.Ok ⟨(s.proc p).ofile, pc⟩) (hfresh : pc.fresh = [])
    (hnew : ∀ c i, pc ≠ .fork c i) : Inv (s.setPc p pc) := by
  refine h.setProc (fun g => ?_) hok (fun g hg => ?_) hp.child (fun c i hf => absurd hf (hnew c i)) ?_
  · rw [hp.share_eq, ← hx.share_eq]
  · change g ∈ pc.fresh at hg
    rw [hfresh] at hg
    cases hg
  · rw [hp.claim]
    exact hx.claim

theorem user_ret (h : Inv s) (hp : Plain (s.proc p)) (r' : Int) : Inv (s.setPc p (.user r')) :=
  h.setPc hp (plain_user rfl) trivial rfl (by simp)

theorem count_singleton (f g : FileId) : List.count g [f] = one (some f) g := by
  simp [one, List.count_singleton]

theorem dup (h : Inv s) (hp : (s.proc p).pc = .user r) (ho : (s.proc p).ofile old = some f)
    (hn : (s.proc p).ofile fd = none) :
    Inv (s.setProc p { ofile := update (s.proc p).ofile fd (some f), pc := .dup f old fd }) := by
  have hne : old ≠ fd := by
    rintro rfl
    rw [ho] at hn
    cases hn
  have hok : ProcFiles.Ok ⟨update (s.proc p).ofile fd (some f), FilePc.dup f old fd (P := P)⟩ :=
    ⟨hne, (update_of_ne hne ..).trans ho, update_self ..⟩
  refine h.setProc (fun g => ?_) hok (by simp [FilePc.fresh]) (by simp [hp]) (by simp)
    (by simp [FilePc.claim, hp])
  have hu := fds_update (s.proc p).ofile fd (some f) g
  rw [hn, one_none] at hu
  simp only [share, FilePc.held, ProcFiles.void, hp, List.count_nil, one_none]
  omega

theorem close (h : Inv s) (hp : (s.proc p).pc = .user r) (hf : (s.proc p).ofile fd = some f) :
    Inv (s.setProc p { ofile := update (s.proc p).ofile fd none, pc := .closing [f] (.ret 0) }) := by
  refine h.setProc (fun g => ?_) trivial (by simp [FilePc.fresh]) (by simp [hp]) (by simp)
    (by simp [FilePc.claim, hp])
  have hu := fds_update (s.proc p).ofile fd none g
  rw [hf, one_none] at hu
  simp only [share, FilePc.held, ProcFiles.void, hp, List.count_nil, count_singleton, AfterClose.void, one_none]
  omega

theorem embryo (h : Inv s) (hc : (s.proc c).pc = .unused) (p : P) : Inv (s.setPc c (.embryo p)) := by
  refine h.setProc (fun g => ?_) trivial (by simp [FilePc.fresh]) (by simp [hc]) (by simp)
    (by simp [FilePc.claim, hc])
  simp [share, FilePc.held, ProcFiles.void, hc]

theorem fork (h : Inv s) (hp : (s.proc p).pc = .user r) (hc : (s.proc c).pc = .unused) :
    Inv ((s.setPc c (.embryo p)).setPc p (.fork c 0)) := by
  have hpc : p ≠ c := by
    rintro rfl
    rw [hp] at hc
    cases hc
  have hnone : ∀ fd, (s.proc c).ofile fd = none := h.ok_at hc
  have h₁ := h.embryo hc p
  have hp₁ : (s.setPc c (.embryo p)).proc p = s.proc p := update_of_ne hpc ..
  have hc₁ : (s.setPc c (.embryo p)).proc c = { s.proc c with pc := .embryo p } := update_self ..
  refine h₁.setProc (fun g => ?_) trivial (by simp [FilePc.fresh]) (by simp [hp₁, hp]) (fun c' i hf => ?_)
    (by simp [FilePc.claim, hp₁, hp])
  · simp [share, FilePc.held, ProcFiles.void, hp₁, hp]
  · cases hf
    rw [hc₁]
    exact ⟨rfl, fun fd _ => hnone fd⟩

theorem call (h : Inv s) (hp : (s.proc p).pc = .user r) (c : FileCall P) : Inv (s.call p c) := by
  cases c with
  | dup n =>
    cases ha : FileTable.argfd (s.proc p).ofile n with
    | none =>
      simp only [FileTable.call, ha]
      exact h.user_ret (plain_user hp) _
    | some a =>
      cases hfd : FileTable.fdalloc (s.proc p).ofile with
      | none =>
        simp only [FileTable.call, ha, hfd]
        exact h.user_ret (plain_user hp) _
      | some fd =>
        simp only [FileTable.call, ha, hfd]
        exact h.dup hp (argfd_eq ha) (fdalloc_eq hfd)
  | close n =>
    cases ha : FileTable.argfd (s.proc p).ofile n with
    | none =>
      simp only [FileTable.call, ha]
      exact h.user_ret (plain_user hp) _
    | some a =>
      simp only [FileTable.call, ha]
      exact h.close hp (argfd_eq ha)
  | «open» found omode =>
    cases hf : found.filter (FileTable.openChecks omode) with
    | none =>
      simp only [FileTable.call, hf]
      exact h.user_ret (plain_user hp) _
    | some ip =>
      simp only [FileTable.call, hf]
      exact h.setPc (plain_user hp) ⟨rfl, rfl, rfl, by simp⟩ trivial rfl (by simp)
  | pipe => exact h.setPc (plain_user hp) ⟨rfl, rfl, rfl, by simp⟩ trivial rfl (by simp)
  | fork slot =>
    cases slot with
    | none => exact h.user_ret (plain_user hp) _
    | some c =>
      simp only [FileTable.call]
      split
      · next hc => exact h.fork hp hc
      · exact h
  | exit =>
    have hok : ProcFiles.Ok ⟨(s.proc p).ofile, FilePc.exit (P := P) 0⟩ :=
      fun _ hi => absurd hi (Nat.not_lt_zero _)
    exact h.setPc (plain_user hp) ⟨rfl, rfl, rfl, by simp⟩ hok rfl (by simp)

theorem moveFile (h : Inv s) (hcount : y.ref + share (s.proc p) f = (s.file f).ref + share x f)
    (hother : ∀ g, g ≠ f → share x g = share (s.proc p) g) (hidle : y.ref = 0 → y.type = .none)
    (hends : y.type = .pipe → y.readable = !y.writable) (hok : x.Ok)
    (hfresh : ∀ g ∈ x.pc.fresh, g = f ∧ y.ref = 1 ∧ y.type = .none ∨ g ≠ f ∧ g ∈ (s.proc p).pc.fresh)
    (hframe : ∀ q ≠ p, f ∉ (s.proc q).pc.fresh)
    (hchild : ∀ q c i, ((s.setProc p x).proc q).pc = .fork c i →
      ((s.setProc p x).proc c).pc = .embryo q ∧ ∀ fd : Fd, i ≤ fd.val → ((s.setProc p x).proc c).ofile fd = none)
    (hduties : Exact ((s.setFile f y).setProc p x).claim s.live) :
    Inv ((s.setFile f y).setProc p x) := by
  have hf : ((s.setFile f y).setProc p x).file f = y := update_self ..
  have hg {g : FileId} (hg : g ≠ f) : ((s.setFile f y).setProc p x).file g = s.file g :=
    update_of_ne hg ..
  refine h.move rfl (fun g => ?_) (fun g hr => ?_) (fun g ht => ?_) hok (fun g hm => ?_) (fun q hq g hm => ?_)
    hchild hduties h.pages
  · by_cases hgf : g = f
    · rw [hgf, hf]
      exact hcount
    · rw [hg hgf, hother g hgf]
  · by_cases hgf : g = f
    · rw [hgf, hf] at hr ⊢
      exact hidle hr
    · rw [hg hgf] at hr ⊢
      exact h.idle g hr
  · by_cases hgf : g = f
    · rw [hgf, hf] at ht ⊢
      exact hends ht
    · rw [hg hgf] at ht ⊢
      exact h.ends g ht
  · rcases hfresh g hm with ⟨rfl, hy⟩ | ⟨hgf, hm⟩
    · rw [hf]
      exact hy
    · rw [hg hgf]
      exact h.fresh p g hm
  · rw [hg]
    rintro rfl
    exact hframe q hq hm

theorem duties_file (h : Inv s) (hy : y.claim = (s.file f).claim)
    (hpc : x.pc.claim = (s.proc p).pc.claim) : Exact ((s.setFile f y).setProc p x).claim s.live := by
  have hf : update s.claim (.inl f) y.claim = s.claim := by
    rw [hy]
    exact update_eq_self (Sum.inl f) s.claim
  rw [claim_setProc, claim_setFile, hf, hpc]
  exact (update_eq_self (Sum.inr p) s.claim).symm ▸ h.duties

omit [DecidableEq P] in
theorem not_fresh (h : Inv s) (hf : 1 ≤ share (s.proc p) f) (hp : (s.proc p).pc.fresh = []) (q : P) :
    f ∉ (s.proc q).pc.fresh := by
  by_cases hqp : q = p
  · rw [hqp, hp]
    exact List.not_mem_nil
  · exact h.fresh_other hqp hf

theorem advance_dup (h : Inv s) (hp : (s.proc p).pc = .dup f old fd) :
    ∃ s', s.filedup f = .ok s' ∧ Inv (s'.setPc p (.user fd.val)) := by
  have hpos := share_pos_of_dup (h.ok p) hp
  have href := h.share_le p f
  have hshare (g : FileId) : share (s.proc p) g + one (some f) g = fds (s.proc p).ofile g := by
    simp only [share, FilePc.held, ProcFiles.void, hp, List.count_nil]
    omega
  have huser (g : FileId) : share ⟨(s.proc p).ofile, FilePc.user (P := P) fd.val⟩ g = fds (s.proc p).ofile g :=
    (plain_user rfl).share_eq g
  refine ⟨_, if_neg (by omega), ?_⟩
  refine h.moveFile (x := ⟨(s.proc p).ofile, .user fd.val⟩) ?_ (fun g hg => ?_) (fun hr => ?_) (h.ends f) trivial
    (by simp [FilePc.fresh]) (fun q _ => h.not_fresh hpos (by rw [hp]; rfl) q)
    (h.child_of_move rfl (by simp [hp]) (by simp)) (h.duties_file rfl (by rw [hp]; rfl))
  · have hs := hshare f
    rw [one_some] at hs
    rw [huser]
    dsimp only
    omega
  · have hs := hshare g
    rw [one, if_neg (by simpa using hg.symm)] at hs
    rw [huser]
    omega
  · dsimp only at hr
    omega

theorem filealloc (h : Inv s) (hf : s.freeFile = some f) (hy : y.ref = 1) (ht : y.type ≠ .pipe)
    (hp : (s.proc p).pc.claim = none) (hold : ∀ q, (s.proc p).pc ≠ .embryo q)
    (hcount : ∀ g, share x g = share (s.proc p) g + one (some f) g) (hok : x.Ok)
    (hfresh : ∀ g ∈ x.pc.fresh, g = f ∧ y.type = .none ∨ g ∈ (s.proc p).pc.fresh)
    (hnew : ∀ c i, x.pc ≠ .fork c i) (hx : x.pc.claim = none) : Inv ((s.setFile f y).setProc p x) := by
  have href := freeFile_eq hf
  have hclaim : (s.file f).claim = none := if_neg (by rw [h.idle f href]; decide)
  have hnot := h.not_fresh_of_free href
  refine h.moveFile ?_ (fun g hg => ?_) (fun hr => ?_) (fun hr => absurd hr ht) hok (fun g hg => ?_)
    (fun q _ => hnot q) (h.child_of_move rfl hold (fun c i hf => absurd hf (hnew c i)))
    (h.duties_file (by rw [hclaim]; exact if_neg ht) (by rw [hx, hp]))
  · rw [hcount, one_some]
    omega
  · rw [hcount, one, if_neg (by simpa using hg.symm)]
    omega
  · omega
  · rcases hfresh g hg with ⟨hgf, hn⟩ | hg
    · exact .inl ⟨hgf, hy, hn⟩
    · refine .inr ⟨?_, hg⟩
      rintro rfl
      exact hnot p hg

omit [Fintype P] in
theorem filealloc_setPc (s : FileTable P) (f : FileId) (p : P) (pc : FilePc P) :
    (s.filealloc f).setPc p pc =
      (s.setFile f { s.file f with ref := 1 }).setProc p ⟨(s.proc p).ofile, pc⟩ := rfl

theorem advance_open {ip : FoundInode} {omode : UInt32} (h : Inv s) (hp : (s.proc p).pc = .opening ip omode) :
    Inv (s.open' p ip omode) := by
  have hplain : Plain (s.proc p) :=
    ⟨by rw [hp]; rfl, by rw [ProcFiles.void, hp], by rw [hp]; rfl, by simp [hp]⟩
  cases hf : s.freeFile with
  | none =>
    simp only [FileTable.open', hf]
    exact h.user_ret hplain _
  | some f =>
    have htype := h.idle f (freeFile_eq hf)
    have hproc : (s.filealloc f).proc p = s.proc p := rfl
    cases hfd : FileTable.fdalloc (s.proc p).ofile with
    | none =>
      simp only [FileTable.open', hf, hproc, hfd]
      rw [filealloc_setPc]
      refine h.filealloc hf rfl (by rw [htype]; decide) hplain.claim hplain.child (fun g => ?_) trivial
        (by simp [FilePc.fresh]) (by simp) rfl
      rw [hplain.share_eq]
      simp only [share, FilePc.held, ProcFiles.void, AfterClose.void, count_singleton, one_none]
      omega
    | some fd =>
      simp only [FileTable.open', hf, hproc, hfd]
      have hset : (s.filealloc f).setFile f (FileTable.openFile ((s.filealloc f).file f) ip omode) =
          s.setFile f (FileTable.openFile { s.file f with ref := 1 } ip omode) := by
        simp [FileTable.filealloc, FileTable.setFile]
      have hopen : (FileTable.openFile { s.file f with ref := 1 } ip omode).ref = 1 ∧
          (FileTable.openFile { s.file f with ref := 1 } ip omode).type ≠ .pipe := by
        unfold FileTable.openFile
        split <;> simp
      rw [hset]
      refine h.filealloc hf hopen.1 hopen.2 hplain.claim hplain.child (fun g => ?_) trivial
        (by simp [FilePc.fresh]) (by simp) rfl
      have hu := fds_update (s.proc p).ofile fd (some f) g
      rw [fdalloc_eq hfd, one_none] at hu
      rw [hplain.share_eq, (plain_user rfl).share_eq]
      dsimp only
      omega

theorem advance_pipe0 (h : Inv s) (hp : (s.proc p).pc = .pipe0) (hf : s.freeFile = some f) :
    Inv ((s.filealloc f).setPc p (.pipe1 f)) := by
  have htype := h.idle f (freeFile_eq hf)
  rw [filealloc_setPc]
  refine h.filealloc hf rfl (by rw [htype]; decide) (by rw [hp]; rfl) (by simp [hp]) (fun g => ?_) trivial
    (fun g hg => .inl ⟨List.mem_singleton.mp hg, htype⟩) (by simp) rfl
  simp only [share, FilePc.held, ProcFiles.void, hp, count_singleton, one_none, List.count_nil]
  omega

theorem advance_pipe1 {rf : FileId} (h : Inv s) (hp : (s.proc p).pc = .pipe1 rf) (hf : s.freeFile = some f) :
    Inv ((s.filealloc f).setPc p (.pipe2 rf f)) := by
  have htype := h.idle f (freeFile_eq hf)
  have hrf : rf ∈ (s.proc p).pc.fresh := by
    rw [hp]
    exact List.mem_singleton_self rf
  have hne : rf ≠ f := by
    rintro rfl
    exact h.not_fresh_of_free (freeFile_eq hf) p hrf
  have hok : ProcFiles.Ok ⟨(s.proc p).ofile, FilePc.pipe2 (P := P) rf f⟩ := hne
  rw [filealloc_setPc]
  refine h.filealloc hf rfl (by rw [htype]; decide) (by rw [hp]; rfl) (by simp [hp]) (fun g => ?_) hok
    (fun g hg => ?_) (by simp) rfl
  · have hcount : List.count g [rf, f] = List.count g [rf] + one (some f) g := by
      rw [← count_singleton, ← List.count_append]
      rfl
    simp only [share, FilePc.held, ProcFiles.void, hp, hcount, one_none]
    omega
  · rcases List.mem_cons.mp hg with rfl | hg
    · exact .inr hrf
    · exact .inl ⟨List.mem_singleton.mp hg, htype⟩

theorem closing {fs : List FileId} (h : Inv s) (hp : (s.proc p).pc = pc) (hheld : pc.held = fs)
    (hvoid : (s.proc p).void = none) (hclaim : pc.claim = none) (hold : ∀ q, pc ≠ .embryo q) (r : Int) :
    Inv (s.setPc p (.closing fs (.ret r))) := by
  refine h.setProc (fun g => ?_) trivial (by simp [FilePc.fresh]) (by rw [hp]; exact hold) (by simp)
    (by rw [hp, hclaim]; rfl)
  rw [share, share, hvoid, hp, hheld]
  rfl

theorem advance_closed {k : AfterClose} (h : Inv s) (hp : (s.proc p).pc = .closing [] k) :
    Inv (s.closed p k) := by
  cases k with
  | ret r =>
    refine h.setProc (fun g => ?_) trivial (by simp [FilePc.fresh]) (by simp [hp]) (by simp)
      (by rw [hp]; rfl)
    simp [share, FilePc.held, ProcFiles.void, hp, AfterClose.void]
  | exit fd =>
    have hbelow : ∀ i < fd, (s.proc p).ofile i = none := h.ok_at hp
    have hok : ProcFiles.Ok ⟨update (s.proc p).ofile fd none, FilePc.exit (P := P) (fd + 1)⟩ := by
      intro i hi
      by_cases hfd : i = fd
      · rw [hfd]
        exact update_self ..
      · refine (update_of_ne hfd ..).trans (hbelow i ?_)
        have hne : i.val ≠ fd.val := fun he => hfd (Fin.ext he)
        exact Fin.lt_def.mpr (by omega)
    refine h.setProc (fun g => ?_) hok (by simp [FilePc.fresh]) (by simp [hp]) (by simp) (by rw [hp]; rfl)
    have hu := fds_update (s.proc p).ofile fd none g
    simp only [share, FilePc.held, ProcFiles.void, hp, AfterClose.void, List.count_nil]
    rw [one_none] at hu ⊢
    omega

end Inv

end Xv6.Ftable
