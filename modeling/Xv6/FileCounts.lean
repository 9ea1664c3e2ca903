import Mathlib.Algebra.BigOperators.Ring.Finset
import Mathlib.Data.Fintype.BigOperators
import Xv6.FileClose

/-! `fork` and `exit`, and the counts that hold in every run. -/

namespace Xv6.Ftable.Inv

open ActionRun Claims Function

variable {P : Type*} [Fintype P] [DecidableEq P] {s s' : FileTable P} {p q : P} {x : ProcFiles P}
  {f : FileId} {r : Int}

section Fork

variable {c : P} {i : Nat}

omit [Fintype P] [DecidableEq P] in
theorem plain_fork (hp : x.pc = .fork c i) : Plain x :=
  ⟨by rw [hp]; rfl, by rw [ProcFiles.void, hp], by rw [hp]; rfl, by simp [hp]⟩

theorem fork_next (h : Inv s) (hp : (s.proc p).pc = .fork c i) : Inv (s.setPc p (.fork c (i + 1))) := by
  refine h.setProc (fun g => ?_) trivial (by simp [FilePc.fresh]) (by simp [hp]) (fun c' i' hf => ?_)
    (by rw [hp]; rfl)
  · rw [(plain_fork hp).share_eq, (plain_fork rfl).share_eq]
  · cases hf
    have hc := h.child p c i hp
    exact ⟨hc.1, fun fd hfd => hc.2 fd (by omega)⟩

theorem fork_fd (h : Inv s) (hp : (s.proc p).pc = .fork c (i + 1)) (hc : (s.proc c).pc = .embryo p)
    (hi : i < nofile) (hnone : (s.proc c).ofile ⟨i, hi⟩ = none) (hf : (s.proc p).ofile ⟨i, hi⟩ = some f) :
    Inv ((s.setFile f { s.file f with ref := (s.file f).ref + 1 }).setProc c
      { s.proc c with ofile := update (s.proc c).ofile ⟨i, hi⟩ (some f) }) := by
  have hpos := share_pos_of_fd (plain_fork hp).void hf
  have href := h.share_le p f
  have hu := fds_update (s.proc c).ofile ⟨i, hi⟩ (some f)
  have hshare (o : Ofile) (g : FileId) : share { s.proc c with ofile := o } g = fds o g := by
    simp [share, FilePc.held, ProcFiles.void, hc]
  have hcount (g : FileId) :
      share { s.proc c with ofile := update (s.proc c).ofile ⟨i, hi⟩ (some f) } g =
        share (s.proc c) g + one (some f) g := by
    have hg := hu g
    rw [hnone, one_none] at hg
    rw [hshare, show share (s.proc c) g = fds (s.proc c).ofile g from hshare _ g]
    omega
  refine h.moveFile ?_ (fun g hg => ?_) (fun hr => ?_) (h.ends f) ?_ ?_ (fun q _ => ?_) (fun q c' j hq => ?_)
    (h.duties_file rfl rfl)
  · rw [hcount, one_some]
    dsimp only
    omega
  · rw [hcount, one, if_neg (by simpa using hg.symm)]
    omega
  · dsimp only at hr
    omega
  · rw [ProcFiles.Ok, hc]
    trivial
  · intro g hg
    rw [hc] at hg
    cases hg
  · exact h.not_fresh hpos (by rw [hp]; rfl) q
  · have hqc : q ≠ c := by
      rintro rfl
      rw [setProc_self, hc] at hq
      cases hq
    have hq' : (s.proc q).pc = .fork c' j := by
      rw [setProc_of_ne s hqc] at hq
      exact hq
    obtain ⟨hc', hn'⟩ := h.child q c' j hq'
    by_cases hcc : c' = c
    · subst hcc
      rw [hc] at hc'
      cases hc'
      rw [hp] at hq'
      cases hq'
      rw [setProc_self]
      refine ⟨hc, fun fd hfd => ?_⟩
      change update (s.proc c').ofile _ _ fd = none
      rw [update_of_ne]
      · exact hn' fd hfd
      · rintro rfl
        exact absurd hfd (by simp)
    · rw [setProc_of_ne s hcc]
      exact ⟨hc', hn'⟩

omit [Fintype P] in
theorem setProc_comm (s : FileTable P) (hpq : p ≠ q) (x y : ProcFiles P) :
    (s.setProc p x).setProc q y = (s.setProc q y).setProc p x := by
  simp only [FileTable.setProc]
  rw [update_comm hpq.symm]

theorem fork_end (h : Inv s) (hp : (s.proc p).pc = .fork c i) :
    Inv ((s.setPc p (.user 1)).setPc c (.user 0)) := by
  have hc := (h.child p c i hp).1
  have hcp : c ≠ p := by
    rintro rfl
    rw [hp] at hc
    cases hc
  have h₁ := h.user_ret (plain_fork hp) 1
  have hc₁ : (s.setPc p (.user 1)).proc c = s.proc c := setProc_of_ne s hcp _
  have hp₁ : ((s.setPc p (.user 1)).proc p).pc = .user 1 := by
    rw [FileTable.setPc, setProc_self]
  generalize s.setPc p (.user 1) = s₁ at h₁ hc₁ hp₁
  rw [← hc₁] at hc
  refine h₁.move rfl (fun g => ?_) h₁.idle h₁.ends trivial (by simp [FilePc.fresh]) (fun _ _ _ _ => rfl)
    (fun q c' j hq => ?_) ?_ h₁.pages
  · have hnew : share ⟨(s₁.proc c).ofile, FilePc.user (P := P) 0⟩ g = share (s₁.proc c) g := by
      simp only [share, hc, FilePc.held, ProcFiles.void]
    rw [hnew]
    rfl
  · have hqc : q ≠ c := by
      rintro rfl
      rw [FileTable.setPc, setProc_self] at hq
      cases hq
    rw [FileTable.setPc, setProc_of_ne s₁ hqc] at hq
    obtain ⟨hc', hn'⟩ := h₁.child q c' j hq
    have hcc : c' ≠ c := by
      rintro rfl
      rw [hc] at hc'
      cases hc'
      rw [hp₁] at hq
      cases hq
    rw [FileTable.setPc, setProc_of_ne s₁ hcc]
    exact ⟨hc', hn'⟩
  · have hclaim : s₁.claim (.inr c) = none := by
      change (s₁.proc c).pc.claim = none
      rw [hc]
      rfl
    have hsame : (s₁.setPc c (.user 0)).claim = s₁.claim := by
      rw [FileTable.setPc, claim_setProc]
      change update s₁.claim (.inr c) none = s₁.claim
      rw [← hclaim]
      exact update_eq_self ..
    rw [hsame]
    exact h₁.duties

theorem advance_fork (h : Inv s) (hp : (s.proc p).pc = .fork c i) :
    ∃ s', s.forkRound p c i = .ok s' ∧ Inv s' := by
  obtain ⟨hc, hnone⟩ := h.child p c i hp
  have hcp : c ≠ p := by
    rintro rfl
    rw [hp] at hc
    cases hc
  by_cases hi : i < nofile
  · simp only [FileTable.forkRound, dif_pos hi]
    have h₁ := h.fork_next hp
    cases hf : (s.proc p).ofile ⟨i, hi⟩ with
    | none => exact ⟨_, rfl, h₁⟩
    | some f =>
      have hpos := share_pos_of_fd (plain_fork hp).void hf
      have href := h.share_le p f
      have hdup : s.filedup f = .ok (s.setFile f { s.file f with ref := (s.file f).ref + 1 }) :=
        if_neg (by omega)
      refine ⟨_, by simp only [hdup]; rfl, ?_⟩
      -- The two processes change one after the other, the parent first.
      have hp₁ : (s.setPc p (.fork c (i + 1))).proc p = { s.proc p with pc := .fork c (i + 1) } :=
        setProc_self ..
      have hc₁ : (s.setPc p (.fork c (i + 1))).proc c = s.proc c := setProc_of_ne s hcp _
      have h₂ := h₁.fork_fd (f := f) (by rw [hp₁]) (by rw [hc₁, hc]) hi
        (by rw [hc₁]; exact hnone ⟨i, hi⟩ (Nat.le_refl i)) (by rw [hp₁]; exact hf)
      rw [hc₁] at h₂
      rw [FileTable.setPc, setProc_of_ne _ hcp.symm, setProc_comm _ hcp]
      exact h₂
  · simp only [FileTable.forkRound, dif_neg hi]
    refine ⟨_, rfl, ?_⟩
    have h₂ := h.fork_end hp
    have hc₁ : (s.setPc p (.user 1)).proc c = s.proc c := setProc_of_ne s hcp _
    have hp₁ : (s.setPc c (.user 0)).proc p = s.proc p := setProc_of_ne s hcp.symm _
    rw [FileTable.setPc, hc₁] at h₂
    rw [FileTable.setPc, hp₁, FileTable.setPc, setProc_comm _ hcp]
    exact h₂

end Fork

theorem advance_exit {fd : Nat} (h : Inv s) (hp : (s.proc p).pc = .exit fd) : Inv (s.exitRound p fd) := by
  have hplain : Plain (s.proc p) :=
    ⟨by rw [hp]; rfl, by rw [ProcFiles.void, hp], by rw [hp]; rfl, by simp [hp]⟩
  have hbelow : ∀ i : Fd, i.val < fd → (s.proc p).ofile i = none := h.ok_at hp
  by_cases hfd : fd < nofile
  · cases hf : (s.proc p).ofile ⟨fd, hfd⟩ with
    | none =>
      simp only [FileTable.exitRound, dif_pos hfd, hf]
      have hok : ProcFiles.Ok ⟨(s.proc p).ofile, FilePc.exit (P := P) (fd + 1)⟩ := by
        intro i hi
        rcases Nat.lt_succ_iff_lt_or_eq.mp hi with hlt | heq
        · exact hbelow i hlt
        · rw [show i = ⟨fd, hfd⟩ from Fin.ext heq]
          exact hf
      exact h.setPc hplain ⟨rfl, rfl, rfl, by simp⟩ hok rfl (by simp)
    | some f =>
      simp only [FileTable.exitRound, dif_pos hfd, hf]
      have hok : ProcFiles.Ok ⟨(s.proc p).ofile, FilePc.closing (P := P) [f] (.exit ⟨fd, hfd⟩)⟩ :=
        fun i hi => hbelow i hi
      refine h.setProc (fun g => ?_) hok (by simp [FilePc.fresh]) hplain.child (by simp)
        (by rw [hplain.claim]; rfl)
      rw [hplain.share_eq]
      simp only [share, FilePc.held, ProcFiles.void, AfterClose.void, count_singleton, hf]
      omega
  · simp only [FileTable.exitRound, dif_neg hfd]
    have hok : ProcFiles.Ok ⟨(s.proc p).ofile, FilePc.zombie (P := P)⟩ :=
      fun i => hbelow i (Nat.lt_of_lt_of_le i.isLt (Nat.le_of_not_lt hfd))
    exact h.setPc hplain ⟨rfl, rfl, rfl, by simp⟩ hok rfl (by simp)

theorem advance (h : Inv s) (p : P) (page : Option Nat) (copied : Bool) :
    ∃ s', s.advance p page copied = .ok s' ∧ Inv s' := by
  unfold FileTable.advance
  split
  · next f old fd hp =>
    obtain ⟨s', hdup, hs'⟩ := h.advance_dup hp
    rw [hdup]
    exact ⟨_, rfl, hs'⟩
  · next ip omode hp => exact ⟨_, rfl, h.advance_open hp⟩
  · next hp =>
    split
    · exact ⟨_, rfl, h.user_ret ⟨by rw [hp]; rfl, by rw [ProcFiles.void, hp], by rw [hp]; rfl, by simp [hp]⟩ _⟩
    · next f hf => exact ⟨_, rfl, h.advance_pipe0 hp hf⟩
  · next rf hp =>
    split
    · exact ⟨_, rfl, h.closing hp rfl (by rw [ProcFiles.void, hp]) rfl (by simp) _⟩
    · next f hf => exact ⟨_, rfl, h.advance_pipe1 hp hf⟩
  · next rf wf hp => exact ⟨_, rfl, h.advance_pipe2 hp page copied⟩
  · next k hp => exact ⟨_, rfl, h.advance_closed hp⟩
  · next f fs k hp => exact h.advance_fileclose hp
  · next pi w fs k hp => exact h.advance_pipeclose hp
  · next pi fs k hp => exact h.advance_kfree hp
  · next c i hp => exact h.advance_fork hp
  · next fd hp => exact ⟨_, rfl, h.advance_exit hp⟩
  all_goals exact ⟨_, rfl, h⟩

theorem reap (h : Inv s) (hp : (s.proc p).pc = .zombie) : Inv (s.setPc p .unused) := by
  have hnone : ∀ fd, (s.proc p).ofile fd = none := h.ok_at hp
  exact h.setPc ⟨by rw [hp]; rfl, by rw [ProcFiles.void, hp], by rw [hp]; rfl, by simp [hp]⟩
    ⟨rfl, rfl, rfl, by simp⟩ hnone rfl (by simp)

theorem step (h : Inv s) (a : FileAct P) : ∃ s', s.step a = .ok s' ∧ Inv s' := by
  cases a with
  | call p c =>
    simp only [FileTable.step]
    split
    · next r hp => exact ⟨_, rfl, h.call hp c⟩
    · exact ⟨_, rfl, h⟩
  | advance p page copied => exact h.advance p page copied
  | reap p =>
    simp only [FileTable.step]
    split
    · next hp => exact ⟨_, rfl, h.reap hp⟩
    · exact ⟨_, rfl, h⟩

omit [Fintype P] in
theorem boot_pc (init p : P) :
    ((FileTable.boot init).proc p).pc = .user 0 ∨ ((FileTable.boot init).proc p).pc = .unused := by
  by_cases hp : p = init
  · exact .inl (if_pos hp)
  · exact .inr (if_neg hp)

theorem boot (init : P) : Inv (FileTable.boot init) := by
  have hclaim : ∀ o, (FileTable.boot init).claim o = none := by
    rintro (g | p)
    · rfl
    · change ((FileTable.boot init).proc p).pc.claim = none
      rcases boot_pc init p with hp | hp <;> rw [hp] <;> rfl
  refine ⟨fun f => ?_, fun f _ => rfl, fun f hf => (by cases hf), fun p => ?_, fun p f hf => ?_,
    fun p c i hp => ?_, ⟨fun {o o' r} ho => ?_,
    fun r => ⟨fun ⟨x, hx, _⟩ => (by cases hx), fun ⟨o, ho⟩ => ?_⟩⟩, fun _ => rfl⟩
  · have hshare (p : P) : share ((FileTable.boot init).proc p) f = 0 := by
      have hfds : fds ((FileTable.boot init).proc p).ofile f = 0 := Finset.sum_eq_zero fun _ _ => rfl
      rcases boot_pc init p with hp | hp <;> simp [share, ProcFiles.void, FilePc.held, hp, hfds]
    exact (Finset.sum_eq_zero (fun p _ => hshare p)).symm
  · rcases boot_pc init p with hp | hp
    · rw [ProcFiles.Ok, hp]
      trivial
    · rw [ProcFiles.Ok, hp]
      exact fun _ => rfl
  · rcases boot_pc init p with hp | hp <;> rw [hp] at hf <;> cases hf
  · rcases boot_pc init p with hp' | hp' <;> rw [hp'] at hp <;> cases hp
  · rw [hclaim] at ho
    cases ho
  · rw [hclaim] at ho
    cases ho

theorem run {as : List (FileAct P)} (h : Inv s) : ∃ s', ActionRun.run FileTable.step s as = .ok s' ∧ Inv s' := by
  induction as generalizing s with
  | nil => exact ⟨s, rfl, h⟩
  | cons a as ih =>
    obtain ⟨s₁, hstep, h₁⟩ := h.step a
    obtain ⟨s', hrun, h'⟩ := ih h₁
    refine ⟨s', ?_, h'⟩
    rw [ActionRun.run, hstep]
    exact hrun

end Xv6.Ftable.Inv

namespace Xv6.Ftable

open ActionRun

variable {P : Type*} [Fintype P]

def FilePc.quiet : FilePc P → Bool
  | .user _ | .unused | .zombie => true
  | _ => false

def FileTable.IsEnd (s : FileTable P) (pi : Nat) (f : FileId) : Prop :=
  0 < (s.file f).ref ∧ (s.file f).type = .pipe ∧ (s.file f).pipe = pi

structure Counted (s : FileTable P) : Prop where
  refs : ∀ f, (s.file f).ref =
    (Finset.univ.filter (fun x : P × Fd => (s.proc x.1).ofile x.2 = some f)).card
  idle : ∀ f, (s.file f).ref = 0 → (s.file f).type = .none
  readopen : ∀ pi x, s.pipe pi = some x →
    (x.readopen = true ↔ ∃ f, s.IsEnd pi f ∧ (s.file f).readable = true)
  writeopen : ∀ pi x, s.pipe pi = some x →
    (x.writeopen = true ↔ ∃ f, s.IsEnd pi f ∧ (s.file f).writable = true)
  page : ∀ pi, (s.pipe pi).isSome ↔ ∃ f, s.IsEnd pi f
  once : ∀ pi, s.made pi = s.freed pi + if (s.pipe pi).isSome then 1 else 0

section Quiet

variable {s : FileTable P} {pi : Nat} {w : Bool}

theorem Inv.file_claim (h : Inv s) {f : FileId} :
    (s.file f).claim = some (pi, .side w) ↔ s.IsEnd pi f ∧ (s.file f).writable = w := by
  unfold File.claim FileTable.IsEnd
  by_cases ht : (s.file f).type = .pipe
  · have hne : (s.file f).ref ≠ 0 := by
      intro h0
      rw [h.idle f h0] at ht
      cases ht
    have hnn : 0 ≤ (s.file f).ref := by
      rw [h.refs f]
      exact Finset.sum_nonneg fun p _ => share_nonneg (h.ok p) f
    have hpos : 0 < (s.file f).ref := by omega
    simp [ht, hpos]
  · simp [ht]

omit [Fintype P] in
theorem plain_of_quiet {x : ProcFiles P} (hx : x.pc.quiet = true) : Inv.Plain x := by
  obtain ⟨o, pc⟩ := x
  cases pc with
  | user r => exact ⟨rfl, rfl, rfl, by simp⟩
  | unused => exact ⟨rfl, rfl, rfl, by simp⟩
  | zombie => exact ⟨rfl, rfl, rfl, by simp⟩
  | _ => cases hx

variable (hq : ∀ p, (s.proc p).pc.quiet = true)

include hq

theorem Inv.live_iff_end (h : Inv s) :
    s.live (pi, .side w) ↔ ∃ f, s.IsEnd pi f ∧ (s.file f).writable = w := by
  rw [h.duties.live_iff]
  constructor
  · rintro ⟨f | p, ho⟩
    · exact ⟨f, h.file_claim.mp ho⟩
    · have hn := (plain_of_quiet (hq p)).claim
      change (s.proc p).pc.claim = _ at ho
      rw [hn] at ho
      cases ho
  · rintro ⟨f, hf⟩
    exact ⟨.inl f, h.file_claim.mpr hf⟩

theorem Inv.not_live_page (h : Inv s) (pi : Nat) : ¬ s.live (pi, .page) := by
  rw [h.duties.live_iff]
  rintro ⟨f | p, ho⟩
  · change (s.file f).claim = _ at ho
    unfold File.claim at ho
    split at ho <;> cases ho
  · have hn := (plain_of_quiet (hq p)).claim
    change (s.proc p).pc.claim = _ at ho
    rw [hn] at ho
    cases ho

theorem Inv.counted (h : Inv s) : Counted s := by
  refine ⟨fun f => ?_, h.idle, fun pi x hx => ?_, fun pi x hx => ?_,
    fun pi => ⟨fun hs => ?_, fun ⟨f, hf⟩ => ?_⟩, h.pages⟩
  · have hcard : (Finset.univ.filter (fun x : P × Fd => (s.proc x.1).ofile x.2 = some f)).card =
        ∑ p, fds (s.proc p).ofile f := by
      rw [Finset.card_filter, Fintype.sum_prod_type]
      rfl
    rw [h.refs f, hcard, Nat.cast_sum]
    exact Finset.sum_congr rfl fun p _ => (plain_of_quiet (hq p)).share_eq f
  · rw [← show s.live (pi, .side false) ↔ x.readopen = true from Inv.live_iff_of hx (.side false),
      h.live_iff_end hq]
    refine exists_congr fun f => and_congr_right (fun hf => ?_)
    rw [h.ends f hf.2.1]
    simp
  · rw [← show s.live (pi, .side true) ↔ x.writeopen = true from Inv.live_iff_of hx (.side true),
      h.live_iff_end hq]
  · obtain ⟨x, hx⟩ := Option.isSome_iff_exists.mp hs
    have hpage := h.not_live_page hq pi
    rw [Inv.live_iff_of hx] at hpage
    have hside : ∃ w, s.live (pi, .side w) := by
      by_contra hno
      rw [not_exists] at hno
      have hr := hno false
      have hw := hno true
      rw [Inv.live_iff_of hx] at hr hw
      exact hpage ⟨by simpa [Duty.Of] using hr, by simpa [Duty.Of] using hw⟩
    obtain ⟨w, hw⟩ := hside
    obtain ⟨f, hf, _⟩ := (h.live_iff_end hq).mp hw
    exact ⟨f, hf⟩
  · obtain ⟨x, hx, _⟩ := (h.live_iff_end hq).mpr ⟨f, hf, rfl⟩
    change s.pipe pi = some x at hx
    rw [hx]
    rfl

end Quiet

/-- No run panics, and between system calls all counts are exact. -/
theorem file_refs_exact [DecidableEq P] (init : P) (as : List (FileAct P)) :
    ∃ s, run FileTable.step (FileTable.boot init) as = .ok s ∧
      ((∀ p, (s.proc p).pc.quiet = true) → Counted s) := by
  obtain ⟨s, hrun, hs⟩ := (Inv.boot init).run
  exact ⟨s, hrun, fun hq => hs.counted hq⟩

end Xv6.Ftable
