import Xv6.ProcExec
import Xv6.ProcExit
import Xv6.ProcFork

/-! The machine with private memories, and the kernel beside it. -/

namespace Xv6

open Function StateProg

/-- One step of the machine in which every process has memory of its own. It is told how
the kernel's step came out: which slot a new process got, whether there was enough memory. -/
def Users.step (us : Users) (op : Op) (res : Result) : Option Users :=
  match op, res with
  | _, .idle => some us
  | .kalloc, _ => some us
  | .kfree _, _ => some us
  | .userinit, .started (some p) =>
    match us p with
    | none => some (update us p (some ⟨initImage, PGSIZE⟩))
    | some _ => none
  | .fork p, .started (some np) =>
    match us p, us np with
    | some u, none => some (update us np (some u))
    | _, _ => none
  | .fork _, .failed => some us
  | .exec p f uargv, .done =>
    (us p).bind fun u => (u.exec (fileReads f) uargv).map (fun u' => update us p (some u'))
  | .exec _ _ _, .failed => some us
  | .sbrk p n, .done => (us p).map fun u => update us p (some (u.sbrk n))
  | .sbrk _ _, .failed => some us
  | .load p va, .loaded b => (us p).bind fun u => if u.mem.load va = some b then some us else none
  | .load p va, .killed => (us p).bind fun u => if u.mem.load va = none then some us else none
  | .store p va b, .done =>
    (us p).bind fun u => (u.mem.store va b).map (fun um => update us p (some ⟨um, u.sz⟩))
  | .store p va b, .killed => (us p).bind fun u => if (u.mem.store va b).isNone then some us else none
  | .copyin p va len, .copied bytes =>
    (us p).bind fun u => if UserMem.copyin len u.mem va len = bytes then some us else none
  | .copyout p va bytes, .returned r =>
    (us p).bind (fun u =>
      if (u.copyout va bytes).2 = r then some (update us p (some (u.copyout va bytes).1))
      else none)
  | .exit _ _, .done => some us
  | .wait p addr, .reaped q status =>
    if addr = 0 then some (update us q none)
    else (us p).bind (fun u =>
      if (u.copyout addr (intBytes status)).2 = 0 then
        some (update (update us p (some (u.copyout addr (intBytes status)).1)) q none)
      else none)
  | .wait p addr, .notCopied status =>
    (us p).bind (fun u =>
      if (u.copyout addr (intBytes status)).2 = -1 then
        some (update us p (some (u.copyout addr (intBytes status)).1))
      else none)
  | .wait _ _, .failed => some us
  | _, _ => none

namespace Users

variable (us : Users) (p : Fin NPROC)

theorem step_idle (op : Op) : us.step op .idle = some us := by
  cases op <;> rfl

theorem step_kalloc (res : Result) : us.step .kalloc res = some us := by
  cases res <;> rfl

theorem step_kfree (pa : Nat) (res : Result) : us.step (.kfree pa) res = some us := by
  cases res <;> rfl

theorem step_userinit (h : us p = none) : us.step .userinit (.started (some p)) =
    some (update us p (some ⟨initImage, PGSIZE⟩)) := by
  change (match us p with | none => _ | some _ => none) = _
  rw [h]

theorem step_fork {np : Fin NPROC} {u : UserProc} (hu : us p = some u) (hn : us np = none) :
    us.step (.fork p) (.started (some np)) = some (update us np (some u)) := by
  change (match us p, us np with | some u, none => _ | _, _ => none) = _
  rw [hu, hn]

end Users

/-- A call of the page fault handler or of `copyout` on a page that may be written is
refused in this step. -/
def refused (L : Layout) (s : KState) (op : Op) : Bool :=
  let onTable (p : Fin NPROC) (f : Nat → Bool) : Bool :=
    match (s.proc p).pagetable with
    | some root => (s.proc p).state == .runnable && f root
    | none => false
  match op with
  | .store p va _ => onTable p fun root => storeRefused L root va s.mem
  | .copyout p va bytes => onTable p fun root => copyoutRefused L root bytes.length va bytes s.mem
  | .wait p addr => onTable p (fun root =>
      match findZombie s p with
      | some q => addr != 0 && copyoutRefused L root 4 addr (intBytes (s.proc q).xstate) s.mem
      | none => false)
  | _ => false

def lockstep (L : Layout) (x : KState × Option Users) (op : Op) : Except Panic (KState × Option Users) :=
  match perform L op x.1 with
  | .ok (res, s) => .ok (s, x.2.bind (fun us => us.step op res))
  | .error e => .error e

structure Good (L : Layout) (s : KState) : Prop where
  procs : ∃ σ, Procs L s σ
  settled : Settled s

variable {L : Layout} {s w : KState} {σ : Space Key} {p q : Fin NPROC} {t : Table} {u : UserProc}
  {Q : Result → KState → Prop}

theorem Good.running {x : Nat → Sys Result} (h : Good L s) (hidle : Q .idle s)
    (hx : ∀ σ t u, Procs L s σ → (s.proc p).state = .runnable → σ.table (some p) = some t →
      s.users p = some u → (s.proc p).pagetable = some t.root → WpOr .initExiting (x t.root) Q s) :
    WpOr .initExiting (running p x) Q s := by
  obtain ⟨⟨σ, hp⟩, hs⟩ := h
  rw [Xv6.running]
  apply wpOr_bind
  apply wp_get
  by_cases hrun : (s.proc p).state = .runnable
  · rw [if_pos hrun]
    obtain ⟨t, ht⟩ := hp.running_table hs hrun
    have hroot := (hp.holds ht).1
    apply wpOr_bind
    apply wp_deref hroot
    exact hx σ t _ hp hrun ht (hp.users_some ht) hroot
  · rw [if_neg hrun]
    exact .inr (wp_pure hidle)

theorem Procs.killed (h : Procs L s σ) (hs : Settled s) (hrun : (s.proc p).state = .runnable)
    (status : Nat) {res : Result} (hq : ∀ w, Good L w → w.users = s.users → Q res w) :
    WpOr .initExiting (do
      Xv6.exit p status
      pure res) Q s := by
  apply WpOr.bind
  by_cases hinit : s.initproc = some p
  · left
    change (if s.initproc = some p then throw Panic.initExiting else _ : Sys Unit) s = _
    rw [if_pos hinit]
    rfl
  · right
    refine (h.exit hs hrun hinit status).mono fun _ w hw => ?_
    exact wp_pure (hq w ⟨⟨σ, hw.1⟩, hw.2.1⟩ hw.2.2)

def Follows (L : Layout) (s : KState) (op : Op) (res : Result) (w : KState) : Prop :=
  Good L w ∧ (refused L s op = false → s.users.step op res = some w.users)

theorem refused_onTable {f : Nat → Bool} {root : Nat} (hroot : (s.proc p).pagetable = some root)
    (hrun : (s.proc p).state = .runnable) (h : (match (s.proc p).pagetable with
      | some root => (s.proc p).state == .runnable && f root
      | none => false) = false) : f root = false := by
  rw [hroot, hrun] at h
  simpa using h

namespace Good

theorem idle {op : Op} (h : Good L s) : Follows L s op .idle s :=
  ⟨h, fun _ => Users.step_idle ..⟩

theorem userinit (h : Good L s) (hfree : 10 ≤ s.mem.freelist.length) :
    Wp (perform L .userinit) (Follows L s .userinit) s := by
  obtain ⟨⟨σ, hp⟩, hs⟩ := h
  apply wp_bind_get
  by_cases hinit : s.initproc = none
  · rw [if_pos hinit]
    refine (hp.userinit hs hinit hfree).bind fun _ w hw => ?_
    obtain ⟨np, hnp, hpw, hsw, _, hun, hus⟩ := hw
    apply wp_bind_get
    refine wp_pure ⟨⟨hpw, hsw⟩, fun _ => ?_⟩
    rw [hnp, Users.step_userinit _ _ hun, hus]
  · rw [if_neg hinit]
    exact wp_pure (idle ⟨⟨σ, hp⟩, hs⟩)

theorem kalloc (h : Good L s) : Wp (perform L .kalloc) (Follows L s .kalloc) s := by
  obtain ⟨⟨σ, hp⟩, hs⟩ := h
  refine hp.kalloc.bind fun r w hw => ?_
  obtain ⟨rfl, rfl⟩ | ⟨x, m', σ', rfl, rfl, hp', -, hsame⟩ := hw
  · exact wp_pure ⟨⟨⟨σ, hp⟩, hs⟩, fun _ => rfl⟩
  · apply wp_bind_modify
    refine wp_pure ⟨⟨⟨σ', hp'⟩, hs.same hsame⟩, fun _ => ?_⟩
    rw [Users.step_kalloc, hsame.users]

theorem kfree (h : Good L s) (pa : Nat) : Wp (perform L (.kfree pa)) (Follows L s (.kfree pa)) s := by
  obtain ⟨⟨σ, hp⟩, hs⟩ := h
  apply wp_bind_get
  by_cases hx : pa ∈ s.kpages
  · rw [if_pos hx]
    refine (hp.kfreePage hx).bind fun _ w hw => ?_
    obtain ⟨⟨σ', hp', -⟩, hsame, -⟩ := hw
    refine wp_pure ⟨⟨⟨σ', hp'⟩, hs.same hsame⟩, fun _ => ?_⟩
    rw [Users.step_kfree, hsame.users]
  · rw [if_neg hx]
    exact wp_pure (idle ⟨⟨σ, hp⟩, hs⟩)

theorem fork (h : Good L s) (p : Fin NPROC) :
    WpOr .initExiting (perform L (.fork p)) (Follows L s (.fork p)) s := by
  refine h.running h.idle fun σ t u hp hrun ht hu hroot => .inr ?_
  apply wp_bind_get
  refine (hp.fork h.settled hrun).bind fun r w hw => ?_
  obtain ⟨hpw, hsw, ⟨hr, hus⟩ | ⟨np, hr, hfind, hun, hus⟩⟩ := hw
  · rw [if_pos hr]
    exact wp_pure ⟨⟨hpw, hsw⟩, fun _ => by rw [hus]; rfl⟩
  · rw [if_neg (by omega)]
    refine wp_pure ⟨⟨hpw, hsw⟩, fun _ => ?_⟩
    rw [hfind, Users.step_fork _ _ hu hun, hus, hu]

theorem exec (h : Good L s) (p : Fin NPROC) (f : File) (uargv : Nat) :
    WpOr .initExiting (perform L (.exec p f uargv)) (Follows L s (.exec p f uargv)) s := by
  refine h.running h.idle fun σ t u hp hrun ht hu hroot => .inr ?_
  refine (hp.sysExec h.settled hrun hu f uargv).bind fun r w hw => ?_
  obtain ⟨hpw, hsw, ⟨hr, hus⟩ | ⟨hr, u', hexec, hus⟩⟩ := hw
  · rw [ofReturn, if_pos hr]
    exact wp_pure ⟨⟨hpw, hsw⟩, fun _ => by rw [hus]; rfl⟩
  · rw [ofReturn, if_neg (by omega)]
    refine wp_pure ⟨⟨hpw, hsw⟩, fun _ => ?_⟩
    change (s.users p).bind _ = _
    simp only [hu, Option.bind_some, hexec, Option.map_some, hus]

theorem sbrk (h : Good L s) (p : Fin NPROC) (n : Int) :
    WpOr .initExiting (perform L (.sbrk p n)) (Follows L s (.sbrk p n)) s := by
  refine h.running h.idle fun σ t u hp hrun ht hu hroot => .inr ?_
  refine (hp.growproc h.settled hrun hu n).bind fun r w hw => ?_
  obtain ⟨hpw, hsw, ⟨rfl, hus⟩ | ⟨rfl, hus⟩⟩ := hw
  · exact wp_pure ⟨⟨hpw, hsw⟩, fun _ => by rw [hus]; rfl⟩
  · refine wp_pure ⟨⟨hpw, hsw⟩, fun _ => ?_⟩
    change (s.users p).map _ = _
    rw [hu, Option.map_some, hus]

theorem load (h : Good L s) (p : Fin NPROC) (va : Nat) :
    WpOr .initExiting (perform L (.load p va)) (Follows L s (.load p va)) s := by
  refine h.running h.idle fun σ t u hp hrun ht hu hroot => ?_
  apply wpOr_bind
  refine (hp.userLoad ht hu va).mono fun r w hw => ?_
  obtain ⟨rfl, ⟨b, rfl, hb⟩ | ⟨rfl, hb⟩⟩ := hw
  · refine .inr (wp_pure ⟨h, fun _ => ?_⟩)
    change (w.users p).bind _ = _
    simp only [hu, Option.bind_some, hb, if_true]
  · refine hp.killed h.settled hrun _ fun w' hw' hus => ⟨hw', fun _ => ?_⟩
    change (w.users p).bind _ = _
    simp only [hu, Option.bind_some, hb, if_true, hus]

theorem store (h : Good L s) (p : Fin NPROC) (va : Nat) (b : UInt8) :
    WpOr .initExiting (perform L (.store p va b)) (Follows L s (.store p va b)) s := by
  refine h.running h.idle fun σ t u hp hrun ht hu hroot => ?_
  apply wpOr_bind
  refine (hp.userStore ht hu va b).mono fun r w hw => ?_
  obtain ⟨⟨m', rfl⟩, ⟨σ', hp'⟩, ⟨rfl, um, hum, hus⟩ | ⟨rfl, hus, hnot⟩⟩ := hw
  · refine .inr (wp_pure ⟨⟨⟨σ', hp'⟩, ⟨h.settled.unused, h.settled.live, h.settled.init⟩⟩, fun _ => ?_⟩)
    change (s.users p).bind _ = _
    simp only [hu, Option.bind_some, hum, Option.map_some, hus]
  · refine hp'.killed ⟨h.settled.unused, h.settled.live, h.settled.init⟩ hrun _
      fun w' hw' hus' => ⟨hw', fun href => ?_⟩
    have hnone := hnot (refused_onTable (f := fun root => storeRefused L root va s.mem) hroot hrun href)
    change (s.users p).bind _ = _
    simp only [hu, Option.bind_some, hnone, Option.isNone_none, if_true, hus', hus]

theorem copyin (h : Good L s) (p : Fin NPROC) (va len : Nat) :
    WpOr .initExiting (perform L (.copyin p va len)) (Follows L s (.copyin p va len)) s := by
  refine h.running h.idle fun σ t u hp hrun ht hu hroot => .inr ?_
  refine (hp.copyin ht hu va len).bind fun r w hw => ?_
  obtain ⟨rfl, rfl⟩ := hw
  refine wp_pure ⟨h, fun _ => ?_⟩
  change (w.users p).bind _ = _
  simp only [hu, Option.bind_some, if_true]

theorem copyout (h : Good L s) (p : Fin NPROC) (va : Nat) (bytes : List UInt8) :
    WpOr .initExiting (perform L (.copyout p va bytes)) (Follows L s (.copyout p va bytes)) s := by
  refine h.running h.idle fun σ t u hp hrun ht hu hroot => .inr ?_
  refine (hp.copyout ht hu va bytes).bind fun r w hw => ?_
  obtain ⟨⟨m', rfl⟩, hp', _, u', hus, hcopy⟩ := hw
  refine wp_pure ⟨⟨hp', ⟨h.settled.unused, h.settled.live, h.settled.init⟩⟩, fun href => ?_⟩
  have hres := hcopy (.inr (refused_onTable
    (f := fun root => copyoutRefused L root bytes.length va bytes s.mem) hroot hrun href))
  change (s.users p).bind _ = _
  simp only [hu, Option.bind_some, hres, if_true, hus]

theorem exit (h : Good L s) (p : Fin NPROC) (status : Nat) :
    WpOr .initExiting (perform L (.exit p status)) (Follows L s (.exit p status)) s := by
  refine h.running h.idle fun σ t u hp hrun ht hu hroot => ?_
  refine hp.killed h.settled hrun status fun w hw hus => ⟨hw, fun _ => ?_⟩
  rw [hus]
  rfl

theorem wait (h : Good L s) (p : Fin NPROC) (addr : Nat) :
    WpOr .initExiting (perform L (.wait p addr)) (Follows L s (.wait p addr)) s := by
  refine h.running h.idle fun σ t u hp hrun ht hu hroot => .inr ?_
  apply wp_bind_get
  refine (hp.wait h.settled hu ht addr).bind fun r w hw => ?_
  obtain ⟨hpw, hsw, ⟨hz, hus⟩ | ⟨q, r', hz, rfl, hcases⟩⟩ := hw
  · rw [hz]
    cases r with
    | none => exact wp_pure ⟨⟨hpw, hsw⟩, fun _ => by rw [Users.step_idle, hus]⟩
    | some r => exact wp_pure ⟨⟨hpw, hsw⟩, fun _ => by rw [hus]; rfl⟩
  · rw [hz]
    dsimp only
    obtain ⟨hr, haddr, u', hus, hcopy⟩ | ⟨hr, haddr, hus⟩ | ⟨hr, haddr, u', hcopy, hus⟩ := hcases
    · rw [if_pos hr]
      refine wp_pure ⟨⟨hpw, hsw⟩, fun href => ?_⟩
      have hnot := refused_onTable (f := fun root =>
        match findZombie s p with
        | some q => addr != 0 && copyoutRefused L root 4 addr (intBytes (s.proc q).xstate) s.mem
        | none => false) hroot hrun href
      rw [hz] at hnot
      have hne : (addr != 0) = true := by simpa using haddr
      simp only [hne, Bool.true_and] at hnot
      change (s.users p).bind _ = _
      simp only [hu, Option.bind_some, hcopy hnot, if_true, hus]
    · rw [if_neg (by omega)]
      exact wp_pure ⟨⟨hpw, hsw⟩, fun _ => (if_pos haddr).trans (congrArg some hus.symm)⟩
    · rw [if_neg (by omega)]
      refine wp_pure ⟨⟨hpw, hsw⟩, fun _ => ?_⟩
      refine (if_neg haddr).trans ?_
      simp only [hu, Option.bind_some, hcopy, if_true, hus]

end Good

def BootOk (s : KState) (op : Op) : Prop := op = .userinit → 10 ≤ s.mem.freelist.length

instance decidableBootOk (s : KState) (op : Op) : Decidable (BootOk s op) :=
  match op with
  | .userinit => decidable_of_iff (10 ≤ s.mem.freelist.length) ⟨fun h _ => h, fun h => h rfl⟩
  | .kalloc | .kfree _ | .fork _ | .exec .. | .sbrk .. | .load .. | .store .. | .copyin .. | .copyout .. |
    .exit .. | .wait .. => isTrue (by rintro ⟨⟩)

theorem Good.perform (h : Good L s) (op : Op) (hboot : BootOk s op) :
    WpOr .initExiting (perform L op) (Follows L s op) s := by
  cases op with
  | userinit => exact .inr (h.userinit (hboot rfl))
  | kalloc => exact .inr h.kalloc
  | kfree pa => exact .inr (h.kfree pa)
  | fork p => exact h.fork p
  | exec p f uargv => exact h.exec p f uargv
  | sbrk p n => exact h.sbrk p n
  | load p va => exact h.load p va
  | store p va b => exact h.store p va b
  | copyin p va len => exact h.copyin p va len
  | copyout p va bytes => exact h.copyout p va bytes
  | exit p status => exact h.exit p status
  | wait p addr => exact h.wait p addr

end Xv6
