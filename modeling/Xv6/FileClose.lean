import Xv6.FileSteps

/-! `fileclose`, with the close of a pipe's end and the free of its page, and the files of a new pipe. -/

namespace Xv6.Ftable.Inv

open ActionRun Claims Function

variable {P : Type*} [Fintype P] [DecidableEq P] {s s' : FileTable P} {p q : P} {x : ProcFiles P}
  {f : FileId} {r : Int}

section Fileclose

variable {fs : List FileId} {k : AfterClose} {pc : FilePc P} {pi : Nat} {w : Bool}

omit [Fintype P] [DecidableEq P] in
theorem share_closing {o : Ofile} (hheld : pc.held = fs) (hvoid : ProcFiles.void ⟨o, pc⟩ = k.void o)
    (g : FileId) :
    share ⟨o, pc⟩ g = (fds o g : Int) + (fs.count g : Int) - (one (k.void o) g : Int) := by
  rw [share, hvoid, hheld]

theorem fileclose_move {y : File} (h : Inv s) (hp : (s.proc p).pc = .closing (f :: fs) k)
    (hy : y.ref = (s.file f).ref - 1) (hidle : y.ref = 0 → y.type = .none)
    (hends : y.type = .pipe → y.readable = !y.writable) (hheld : pc.held = fs)
    (hvoid : ProcFiles.void ⟨(s.proc p).ofile, pc⟩ = k.void (s.proc p).ofile)
    (hok : ProcFiles.Ok ⟨(s.proc p).ofile, pc⟩) (hfresh : pc.fresh = []) (hnew : ∀ c i, pc ≠ .fork c i)
    (hduties : Exact ((s.setFile f y).setProc p ⟨(s.proc p).ofile, pc⟩).claim s.live) :
    Inv ((s.setFile f y).setPc p pc) := by
  have hpos : 1 ≤ share (s.proc p) f := by
    refine share_pos_of_held (h.ok p) ?_
    rw [hp]
    exact List.mem_cons_self
  have hold (g : FileId) : share (s.proc p) g =
      (fds (s.proc p).ofile g : Int) + ((f :: fs).count g : Int) - (one (k.void (s.proc p).ofile) g : Int) := by
    simp only [share, hp, FilePc.held, ProcFiles.void]
  refine h.moveFile (x := ⟨(s.proc p).ofile, pc⟩) ?_ (fun g hg => ?_) hidle hends hok (fun g hg => ?_)
    (fun q _ => h.not_fresh hpos (by rw [hp]; rfl) q)
    (h.child_of_move rfl (by simp [hp]) (fun c i hf => absurd hf (hnew c i))) hduties
  · rw [hy, hold, share_closing hheld hvoid, List.count_cons_self]
    omega
  · rw [hold, share_closing hheld hvoid, List.count_cons_of_ne hg.symm]
  · change g ∈ pc.fresh at hg
    rw [hfresh] at hg
    cases hg

theorem advance_fileclose (h : Inv s) (hp : (s.proc p).pc = .closing (f :: fs) k) :
    ∃ s', s.fileclose p f fs k = .ok s' ∧ Inv s' := by
  have hpos : 1 ≤ share (s.proc p) f := by
    refine share_pos_of_held (h.ok p) ?_
    rw [hp]
    exact List.mem_cons_self
  have href := h.share_le p f
  have hok : k.Ok (s.proc p).ofile := h.ok_at hp
  have hpc : (s.proc p).pc.claim = none := by rw [hp]; rfl
  unfold FileTable.fileclose
  dsimp only
  rw [if_neg (by omega)]
  split
  · next hmore =>
    refine ⟨_, rfl, h.fileclose_move hp rfl (fun hr => ?_) (h.ends f) rfl rfl hok rfl (by simp)
      (h.duties_file rfl (by rw [hpc]; rfl))⟩
    dsimp only at hr
    omega
  · next hlast =>
    have hone : (s.file f).ref = 1 := by omega
    split
    · next hpipe =>
      refine ⟨_, rfl, h.fileclose_move hp (by rw [hone]; rfl) (fun _ => rfl) (fun hr => by cases hr) rfl rfl
        hok rfl (by simp) ?_⟩
      -- The duty to close this end goes from the file to the process.
      have hclaim : s.claim (.inl f) = some ((s.file f).pipe, .side (s.file f).writable) := if_pos hpipe
      have hnone : s.claim (.inr p) = none := hpc
      rw [claim_setProc, claim_setFile]
      exact h.duties.pass hclaim hnone
    · next hpipe =>
      have hclaim : (s.file f).claim = none := if_neg hpipe
      exact ⟨_, rfl, h.fileclose_move hp (by rw [hone]; rfl) (fun _ => rfl) (fun hr => by cases hr) rfl rfl
        hok rfl (by simp) (h.duties_file (by rw [hclaim]; rfl) (by rw [hpc]; rfl))⟩

theorem move_pipe (h : Inv s) (hproc : s'.proc = update s.proc p ⟨(s.proc p).ofile, pc⟩)
    (hfile : s'.file = s.file) (hp : (s.proc p).pc.held = fs)
    (hv : (s.proc p).void = k.void (s.proc p).ofile) (hk : k.Ok (s.proc p).ofile)
    (hold : ∀ q, (s.proc p).pc ≠ .embryo q) (hpc : pc = .closing fs k ∨ ∃ pi, pc = .kfree pi fs k)
    (hduties : Exact s'.claim s'.live)
    (hpages : ∀ pi, s'.made pi = s'.freed pi + if (s'.pipe pi).isSome then 1 else 0) : Inv s' := by
  have hshare : ∀ g, share ⟨(s.proc p).ofile, pc⟩ g = share (s.proc p) g := by
    intro g
    rw [show share (s.proc p) g = _ from share_closing hp hv g]
    rcases hpc with rfl | ⟨pi, rfl⟩ <;> exact share_closing rfl rfl g
  have hok : ProcFiles.Ok ⟨(s.proc p).ofile, pc⟩ := by
    rcases hpc with rfl | ⟨pi, rfl⟩ <;> exact hk
  refine h.move hproc (fun g => by rw [hfile, hshare]) (by rw [hfile]; exact h.idle)
    (by rw [hfile]; exact h.ends) hok (fun g hg => ?_) fun _ _ _ _ => by rw [hfile]
    (h.child_of_move hproc hold (fun c i hf => ?_)) hduties hpages
  · rcases hpc with rfl | ⟨pi, rfl⟩ <;> cases hg
  · rcases hpc with rfl | ⟨pi, rfl⟩ <;> cases hf

omit [Fintype P] [DecidableEq P] in
theorem of_closed {x : Pipe} (hw : (Duty.side w).Of x) (d : Duty) :
    d.Of (if w then { x with writeopen := false } else { x with readopen := false }) ↔
      (d.Of x ∧ d ≠ .side w) ∨ d = .page ∧
        (if w then { x with writeopen := false } else { x with readopen := false } : Pipe).readopen = false ∧
        (if w then { x with writeopen := false } else { x with readopen := false } : Pipe).writeopen = false := by
  cases w with
  | false =>
    cases d with
    | side b => cases b <;> simp [Duty.Of]
    | page =>
      simp only [Duty.Of] at hw
      simp [Duty.Of, hw]
  | true =>
    cases d with
    | side b => cases b <;> simp [Duty.Of]
    | page =>
      simp only [Duty.Of] at hw
      simp [Duty.Of, hw]

omit [Fintype P] [DecidableEq P] in
theorem live_update {v : Option Pipe} (hpipe : s'.pipe = update s.pipe pi v) (r : Nat × Duty) :
    s'.live r ↔ (r.1 = pi ∧ ∃ x, v = some x ∧ r.2.Of x) ∨ (r.1 ≠ pi ∧ s.live r) := by
  unfold FileTable.live
  rw [hpipe]
  by_cases hr : r.1 = pi
  · rw [hr, update_self]
    simp
  · rw [update_of_ne hr]
    simp [hr]

omit [Fintype P] [DecidableEq P] in
theorem live_iff_of {x : Pipe} (hx : s.pipe pi = some x) (d : Duty) : s.live (pi, d) ↔ d.Of x := by
  unfold FileTable.live
  simp [hx]

theorem advance_pipeclose (h : Inv s) (hp : (s.proc p).pc = .pipeclose pi w fs k) :
    ∃ s', s.pipeclose p pi w fs k = .ok s' ∧ Inv s' := by
  have hclaim : s.claim (.inr p) = some (pi, .side w) := by
    change (s.proc p).pc.claim = _
    rw [hp]
    rfl
  obtain ⟨x, hx, hw⟩ := (h.duties.live_iff _).mpr ⟨_, hclaim⟩
  change s.pipe pi = some x at hx
  have hk : k.Ok (s.proc p).ofile := h.ok_at hp
  have hheld : (s.proc p).pc.held = fs := by rw [hp]; rfl
  have hvoid : (s.proc p).void = k.void (s.proc p).ofile := by rw [ProcFiles.void, hp]
  unfold FileTable.pipeclose
  rw [hx]
  dsimp only
  have hof := of_closed hw
  generalize (if w = true then { x with writeopen := false } else { x with readopen := false } : Pipe) = x' at hof
  have hdrop := h.duties.drop hclaim
  have hpages : ∀ q, s.made q = s.freed q + if ((update s.pipe pi (some x')) q).isSome then 1 else 0 := by
    intro q
    rw [h.pages q]
    by_cases hq : q = pi
    · rw [hq, update_self, hx]
      rfl
    · rw [update_of_ne hq]
  split
  · next hboth =>
    refine ⟨_, rfl, h.move_pipe rfl rfl hheld hvoid hk (by simp [hp]) (.inr ⟨pi, rfl⟩) ?_ hpages⟩
    have hpage : ¬ (s.live (pi, .page) ∧ (pi, Duty.page) ≠ (pi, .side w)) := by
      rw [live_iff_of hx]
      cases w <;> simp_all [Duty.Of]
    have hadd := hdrop.add (o := .inr p) (update_self ..) hpage
    rw [update_idem] at hadd
    refine hadd.congr (fun o => congrFun (claim_setProc ..) o) ?_
    rintro ⟨q, d⟩
    rw [live_update (s := s) rfl]
    by_cases hq : q = pi
    · subst hq
      simp [hof, hboth, live_iff_of hx]
    · simp [hq]
  · next hopen =>
    refine ⟨_, rfl, h.move_pipe rfl rfl hheld hvoid hk (by simp [hp]) (.inl rfl) ?_ hpages⟩
    refine hdrop.congr (fun o => congrFun (claim_setProc ..) o) ?_
    rintro ⟨q, d⟩
    rw [live_update (s := s) rfl]
    by_cases hq : q = pi
    · subst hq
      simp [hof, hopen, live_iff_of hx]
    · simp [hq]

theorem advance_kfree (h : Inv s) (hp : (s.proc p).pc = .kfree pi fs k) :
    ∃ s', s.kfree p pi fs k = .ok s' ∧ Inv s' := by
  have hclaim : s.claim (.inr p) = some (pi, .page) := by
    change (s.proc p).pc.claim = _
    rw [hp]
    rfl
  obtain ⟨x, hx, hw⟩ := (h.duties.live_iff _).mpr ⟨_, hclaim⟩
  change s.pipe pi = some x at hx
  have hk : k.Ok (s.proc p).ofile := h.ok_at hp
  have hheld : (s.proc p).pc.held = fs := by rw [hp]; rfl
  have hvoid : (s.proc p).void = k.void (s.proc p).ofile := by rw [ProcFiles.void, hp]
  unfold FileTable.kfree
  rw [hx]
  refine ⟨_, rfl, h.move_pipe rfl rfl hheld hvoid hk (by simp [hp]) (.inl rfl) ?_ (fun q => ?_)⟩
  · refine (h.duties.drop hclaim).congr (fun o => congrFun (claim_setProc ..) o) ?_
    rintro ⟨q, d⟩
    rw [live_update (s := s) rfl]
    by_cases hq : q = pi
    · subst hq
      rw [live_iff_of hx]
      cases d with
      | side b => cases b <;> simp_all [Duty.Of]
      | page => simp
    · simp [hq]
  · have hpages := h.pages q
    change s.made q = update s.freed pi (s.freed pi + 1) q +
      if ((update s.pipe pi none) q).isSome then 1 else 0
    by_cases hq : q = pi
    · subst hq
      rw [hx] at hpages
      rw [update_self, update_self]
      exact hpages
    · rw [update_of_ne hq, update_of_ne hq]
      exact hpages

end Fileclose

section Pipe

variable {rf wf : FileId}

omit [Fintype P] in
theorem pipeFds_eq (s : FileTable P) (p : P) (rf wf : FileId) (copied : Bool) :
    ∃ x, s.pipeFds p rf wf copied = s.setProc p x ∧ x.Ok ∧ x.pc.fresh = [] ∧ x.pc.claim = none ∧
      (∀ c i, x.pc ≠ .fork c i) ∧
      ∀ g, share x g = (fds (s.proc p).ofile g : Int) + ([rf, wf].count g : Int) := by
  have hclose : ∃ x, s.setPc p (.closing [rf, wf] (.ret (-1))) = s.setProc p x ∧ x.Ok ∧ x.pc.fresh = [] ∧
      x.pc.claim = none ∧ (∀ c i, x.pc ≠ .fork c i) ∧
      ∀ g, share x g = (fds (s.proc p).ofile g : Int) + ([rf, wf].count g : Int) := by
    refine ⟨_, rfl, trivial, rfl, rfl, by simp, fun g => ?_⟩
    simp only [share, FilePc.held, ProcFiles.void, AfterClose.void, one_none]
    omega
  unfold FileTable.pipeFds
  cases h0 : FileTable.fdalloc (s.proc p).ofile with
  | none =>
    simp only [h0]
    exact hclose
  | some fd0 =>
    cases h1 : FileTable.fdalloc (update (s.proc p).ofile fd0 (some rf)) with
    | none =>
      simp only [h0, h1]
      exact hclose
    | some fd1 =>
      simp only [h0, h1]
      cases copied with
      | false => exact hclose
      | true =>
        refine ⟨_, rfl, trivial, rfl, rfl, by simp, fun g => ?_⟩
        have hu0 := fds_update (s.proc p).ofile fd0 (some rf) g
        have hu1 := fds_update (update (s.proc p).ofile fd0 (some rf)) fd1 (some wf) g
        rw [fdalloc_eq h0, one_none] at hu0
        rw [fdalloc_eq h1, one_none] at hu1
        have hcount : List.count g [rf, wf] = one (some rf) g + one (some wf) g := by
          rw [← count_singleton, ← count_singleton, ← List.count_append]
          rfl
        rw [(plain_user rfl).share_eq, hcount]
        dsimp only
        omega

omit [Fintype P] in
theorem claim_pipealloc (s : FileTable P) (p : P) (rf wf : FileId) (pi : Nat) (x : ProcFiles P) :
    ((s.pipealloc rf wf pi).setProc p x).claim =
      update (update (update s.claim (.inl rf) (some (pi, .side false))) (.inl wf)
        (some (pi, .side true))) (.inr p) x.pc.claim := by
  rw [claim_setProc]
  simp only [FileTable.pipealloc]
  rw [claim_setFile, claim_setFile]
  rfl

omit [Fintype P] [DecidableEq P] in
theorem pipealloc_file (hne : rf ≠ wf) (pi : Nat) (g : FileId) :
    (s.pipealloc rf wf pi).file g =
      if g = wf then FileTable.pipeFile (s.file wf) pi true
      else if g = rf then FileTable.pipeFile (s.file rf) pi false else s.file g := by
  simp only [FileTable.pipealloc, FileTable.setFile, update_apply]
  grind

theorem pipealloc {pi : Nat} (h : Inv s) (hp : (s.proc p).pc = .pipe2 rf wf) (hnew : s.pipe pi = none)
    (hok : x.Ok) (hfresh : x.pc.fresh = []) (hclaim : x.pc.claim = none) (hfork : ∀ c i, x.pc ≠ .fork c i)
    (hshare : ∀ g, share x g = share (s.proc p) g) : Inv ((s.pipealloc rf wf pi).setProc p x) := by
  have hne : rf ≠ wf := h.ok_at hp
  have hends : ∀ g ∈ [rf, wf], (s.file g).ref = 1 ∧ (s.file g).type = .none := by
    intro g hg
    refine h.fresh p g ?_
    rw [hp]
    exact hg
  have hheld : ∀ g ∈ [rf, wf], 1 ≤ share (s.proc p) g := by
    intro g hg
    refine share_pos_of_held (h.ok p) ?_
    rw [hp]
    exact hg
  have hfile := pipealloc_file (s := s) hne pi
  have href : ∀ g, ((s.pipealloc rf wf pi).file g).ref = (s.file g).ref := by
    intro g
    rw [hfile]
    split
    · next hg => rw [hg]; rfl
    · split
      · next hg => rw [hg]; rfl
      · rfl
  refine h.move rfl (fun g => ?_) (fun g hr => ?_) (fun g ht => ?_) hok (by simp [hfresh]) (fun q hq g hg => ?_)
    (h.child_of_move rfl (by simp [hp]) (fun c i hf => absurd hf (hfork c i))) ?_ (fun q => ?_)
  · rw [hshare]
    exact congrArg (· + _) (href g)
  · change ((s.pipealloc rf wf pi).file g).ref = 0 at hr
    change ((s.pipealloc rf wf pi).file g).type = _
    rw [href] at hr
    have hg : g ≠ wf ∧ g ≠ rf := by
      constructor
      · rintro rfl
        have h1 := (hends g (by simp)).1
        omega
      · rintro rfl
        have h1 := (hends g (by simp)).1
        omega
    rw [hfile, if_neg hg.1, if_neg hg.2]
    exact h.idle g hr
  · change ((s.pipealloc rf wf pi).file g).type = _ at ht
    change ((s.pipealloc rf wf pi).file g).readable = !((s.pipealloc rf wf pi).file g).writable
    rw [hfile] at ht ⊢
    split
    · rfl
    · next hg =>
      rw [if_neg hg] at ht
      split
      · rfl
      · next hg' =>
        rw [if_neg hg'] at ht
        exact h.ends g ht
  · change (s.pipealloc rf wf pi).file g = _
    rw [hfile, if_neg, if_neg]
    · rintro rfl
      exact h.fresh_other hq (hheld g (by simp)) hg
    · rintro rfl
      exact h.fresh_other hq (hheld g (by simp)) hg
  · have hdead : ∀ d, ¬ s.live (pi, d) := by
      rintro d ⟨y, hy, _⟩
      rw [hnew] at hy
      cases hy
    have hnone : ∀ g ∈ [rf, wf], s.claim (.inl g) = none := by
      intro g hg
      exact if_neg (by rw [(hends g hg).2]; decide)
    have hp' : s.claim (.inr p) = none := by
      change (s.proc p).pc.claim = none
      rw [hp]
      rfl
    have hadd := (h.duties.add (hnone rf (by simp)) (hdead (.side false))).add (o := .inl wf)
      (r := (pi, .side true)) ?_ ?_
    · rw [claim_pipealloc, hclaim]
      refine hadd.congr (fun o => ?_) ?_
      · by_cases ho : o = .inr p
        · rw [ho, update_self, update_of_ne (by simp), update_of_ne (by simp), hp']
        · rw [update_of_ne ho]
      · rintro ⟨q, d⟩
        rw [live_update (s := s) rfl]
        by_cases hq : q = pi
        · subst hq
          simp only [hdead]
          cases d with
          | side b => cases b <;> simp [Duty.Of]
          | page => simp [Duty.Of]
        · simp [hq]
    · rw [update_of_ne (by simpa using hne.symm)]
      exact hnone wf (by simp)
    · simp [hdead]
  · have hpages := h.pages q
    change update s.made pi (s.made pi + 1) q =
      s.freed q + if ((update s.pipe pi _) q).isSome then 1 else 0
    by_cases hq : q = pi
    · subst hq
      rw [hnew] at hpages
      rw [update_self, update_self, hpages]
      rfl
    · rw [update_of_ne hq, update_of_ne hq]
      exact hpages

theorem advance_pipe2 (h : Inv s) (hp : (s.proc p).pc = .pipe2 rf wf) (page : Option Nat) (copied : Bool) :
    Inv (s.pipe2 p rf wf page copied) := by
  have hvoid : (s.proc p).void = none := by rw [ProcFiles.void, hp]
  cases hpage : s.kalloc page with
  | none =>
    simp only [FileTable.pipe2, hpage]
    exact h.closing hp rfl hvoid rfl (by simp) _
  | some pi =>
    have hnew : s.pipe pi = none := by
      simpa using (Option.filter_eq_some_iff.mp hpage).2
    simp only [FileTable.pipe2, hpage]
    obtain ⟨x, hx, hok, hfresh, hclaim, hfork, hshare⟩ := pipeFds_eq (s.pipealloc rf wf pi) p rf wf copied
    rw [hx]
    refine h.pipealloc hp hnew hok hfresh hclaim hfork fun g => ?_
    rw [hshare]
    simp only [share, hp, FilePc.held, hvoid, one_none]
    change (fds (s.proc p).ofile g : Int) + _ = _
    omega

end Pipe

end Xv6.Ftable.Inv
