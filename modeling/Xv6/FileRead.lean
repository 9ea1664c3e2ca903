import Xv6.Console
import Xv6.FsArray
import Xv6.PipeFifo

/-! `fileread` for every kind of open file. The length is an `int`; `readi` takes it as an
`uint`. -/

namespace Xv6

open StateProg Fs

inductive FileBody where
  | none
  | pipe (pi : Pipe)
  | device (major : Int) (c : Cons)
  | inode (ip off : Nat)

/-- How a stretch of `fileread` ends; `out` are the bytes the call has stored so far, at the
buffer's address and the addresses behind it. -/
inductive FileReadEnd where
  | asleep (f : FileBody) (out : List UInt8)
  | returned (r : Int) (out : List UInt8) (f : FileBody)

abbrev CONSOLE : Int := 1

def uint (n : Int) : Nat := (n % 2 ^ 32).toNat

/-- `fileread` up to the next `sleep` in `piperead` or `consoleread`. The first `room` bytes of
the buffer can be stored; `got` are those `consoleread` has stored before it slept. -/
def fileread (sb : Superblock) (killed readable : Bool) (f : FileBody) (room : Nat) (n : Int)
    (got : List UInt8) : FsM FileReadEnd :=
  if !readable then pure (.returned (-1) [] f)
  else
    match f with
    | .pipe pi =>
      if pi.empty ∧ pi.writeopen then pure (if killed then .returned (-1) [] f else .asleep f [])
      else
        let (pi', bs, i) := PipeSys.copyLoop (· < room) n.toNat 0 pi
        pure (.returned i (bs.take i) (.pipe pi'))
    | .device major c =>
      if major < 0 ∨ (NDEV : Int) ≤ major ∨ major ≠ CONSOLE then pure (.returned (-1) [] f)
      else
        match consoleread killed n.toNat (· < room) (n.toNat - got.length) got c with
        | (c', .returned r out) => pure (.returned r out (.device major c'))
        | (c', .asleep call) => pure (.asleep (.device major c') call.got)
    | .inode ip off => do
      ilock ip
      let (r, out) ← readi sb ip room off (uint n)
      let f := if r > 0 then .inode ip ((off + r.toNat) % 2 ^ 32) else f
      iunlock ip
      pure (.returned r out f)
    | .none => throw .fileread

/-- A file that a descriptor can refer to; for an inode nobody has it locked. -/
def FileBody.Usable (s : Fs) (refs lk : List Nat) : FileBody → Prop
  | .none => False
  | .inode ip off => ip ∈ refs ∧ ip ∉ lk ∧ (s.dinode ip).type ≠ .none ∧ off < 2 ^ 32
  | _ => True

/-- The call delivers no more than was asked, and from an inode with room for it exactly what
there is. -/
def Asked (s : Fs) (f : FileBody) (room : Nat) (n : Int) : FileReadEnd → Prop
  | .asleep _ out => out.length ≤ n.toNat
  | .returned r out f' => -1 ≤ r ∧ r ≤ max n 0 ∧ out.length ≤ n.toNat ∧
    ∀ ip off, f = .inode ip off → 0 ≤ n → n.toNat ≤ room →
      r = min n (max ((s.dinode ip).size - off) 0) ∧ f' = .inode ip (off + r.toNat)

/-- A negative length that does not make `off + n` wrap, on a file with bytes left. -/
def Overruns (s : Fs) (room : Nat) (n : Int) : FileBody → Prop
  | .inode ip off => n < 0 ∧ (off : Int) < -n ∧ off < (s.dinode ip).size ∧ 0 < room
  | _ => False

theorem copyLoop_le (dst : Nat → Bool) (k i : Nat) (pi : Pipe) :
    (PipeSys.copyLoop dst k i pi).2.2 ≤ i + k := by
  induction k generalizing i pi with
  | zero => exact le_rfl
  | succ k ih =>
    rw [PipeSys.copyLoop]
    split
    · exact Nat.le_add_right ..
    · split
      · refine (ih (i + 1) { pi with nread := pi.nread + 1 }).trans ?_
        omega
      · exact Nat.le_add_right ..

def ReadEnd.Within (target : Nat) : ReadEnd → Prop
  | .returned r out => -1 ≤ r ∧ r ≤ target ∧ out.length ≤ target
  | .asleep call => call.got.length ≤ target

theorem consoleread_within (killed : Bool) (target n : Nat) (dst : Nat → Bool) (got : List UInt8)
    (c : Cons) (h : got.length + n ≤ target) :
    (consoleread killed target dst n got c).2.Within target := by
  induction n generalizing got c with
  | zero => exact ⟨by omega, le_rfl, by omega⟩
  | succ n ih =>
    have hend : (ReadEnd.returned ((target : Int) - (n + 1 : Nat)) got).Within target :=
      ⟨by omega, by omega, by omega⟩
    rw [consoleread]
    split
    · split
      · exact ⟨le_rfl, by omega, by omega⟩
      · exact (Nat.le_add_right ..).trans h
    dsimp only
    split
    · exact hend
    split
    · exact hend
    have hlen : (got ++ [c.buf (c.r.toNat % INPUT_BUF_SIZE)]).length + n ≤ target := by
      rw [List.length_append, List.length_singleton]
      omega
    split
    · exact ⟨by omega, by omega, by omega⟩
    · exact ih _ _ hlen

variable {sb : Superblock} {s : Fs} {refs lk : List Nat} {A : FsPanic → Prop} {ip off room : Nat}
  {n : Int}

def toRead (size off n : Nat) : Nat :=
  if size < off ∨ 2 ^ 32 ≤ off + n then 0 else min n (size - off)

theorem readi_stores {n : Nat} (h : IsFile sb ip s) (hoff : off < 2 ^ 32) (hn : n < 2 ^ 32)
    (room : Nat) : WpUpTo A (readi sb ip room off n) (fun r t => t = s ∧
      (r.1 = toRead (s.din ip).size off n ∧ r.2.length = toRead (s.din ip).size off n ∧
          toRead (s.din ip).size off n ≤ room ∨
        r.1 = -1 ∧ r.2.length = room ∧ room < toRead (s.din ip).size off n)) s := by
  apply upTo_bind_get
  dsimp only
  rw [toRead]
  by_cases hbad : (s.din ip).size < off ∨ 2 ^ 32 ≤ off + n
  · rw [if_pos (by omega), if_pos hbad]
    exact upTo_pure ⟨rfl, .inl ⟨rfl, rfl, Nat.zero_le _⟩⟩
  · rw [if_neg (by omega), if_neg hbad]
    have hcount : (if (s.din ip).size < off + n then (s.din ip).size - off else n) =
        min n ((s.din ip).size - off) := by
      split <;> omega
    rw [hcount]
    refine (readLoop_spec h.blocks h.typed _ _ _ _ (Nat.zero_le _) (by omega) (by omega)).mono ?_
    rintro r t ⟨rfl, ⟨hr, hroom⟩ | ⟨hr, hroom, hlen⟩⟩
    · rw [hr]
      refine ⟨rfl, .inl ⟨rfl, ?_, hroom (Nat.zero_le _)⟩⟩
      rw [List.nil_append, length_slice, Nat.sub_zero]
    · exact ⟨rfl, .inr ⟨hr, hlen rfl (Nat.zero_le _), hroom⟩⟩

theorem Fs.Good.size_le (h : Good sb s refs lk) (ht : (s.dinode ip).type ≠ .none) :
    (s.dinode ip).size ≤ MAXFILE * BSIZE := h.blocks.fits ip ht

theorem asked_inode {r : Int} {out : List UInt8} (hsize : (s.dinode ip).size ≤ MAXFILE * BSIZE)
    (hoff : off < 2 ^ 32) (hlo : -2 ^ 31 ≤ n) (hhi : n < 2 ^ 31)
    (h : r = toRead (s.dinode ip).size off (uint n) ∧
        out.length = toRead (s.dinode ip).size off (uint n) ∧
        toRead (s.dinode ip).size off (uint n) ≤ room ∨
      r = -1 ∧ out.length = room ∧ room < toRead (s.dinode ip).size off (uint n)) :
    Asked s (.inode ip off) room n (.returned r out
      (if r > 0 then .inode ip ((off + r.toNat) % 2 ^ 32) else .inode ip off)) ↔
      ¬ Overruns s room n (.inode ip off) := by
  generalize hk : toRead (s.dinode ip).size off (uint n) = k at h
  simp only [MAXFILE, NDIRECT, NINDIRECT, BSIZE] at hsize
  unfold toRead uint at hk
  rw [Asked, Overruns]
  constructor
  · rintro ⟨hr, hle, hlen, -⟩ ⟨hneg, hlt, hleft, hroom⟩
    split at hk <;> omega
  · intro hno
    have hcase : 0 ≤ n ∨ k = 0 ∨ room = 0 := by
      split at hk <;> omega
    refine ⟨by omega, ?_, ?_, fun ip' off' he hn hroom => ?_⟩
    · split at hk <;> omega
    · split at hk <;> omega
    · cases he
      have hr : r = k := by
        split at hk <;> omega
      refine ⟨by split at hk <;> omega, ?_⟩
      split
      · rw [Nat.mod_eq_of_lt (by split at hk <;> omega)]
      · rw [show r.toNat = 0 by omega, Nat.add_zero]

theorem fileread_inode (h : Good sb s refs lk) (hu : (FileBody.inode ip off).Usable s refs lk)
    (hlo : -2 ^ 31 ≤ n) (hhi : n < 2 ^ 31) (killed : Bool) (got : List UInt8) :
    WpUpTo Never (fileread sb killed true (.inode ip off) room n got) (fun e _ =>
      Asked s (.inode ip off) room n e ↔ ¬ Overruns s room n (.inode ip off)) s := by
  obtain ⟨hr, hl, ht, hoff⟩ := hu
  have huint : uint n < 2 ^ 32 := by
    unfold uint
    omega
  refine (ilock_spec h hr hl (.inl ht)).bind ?_
  rintro _ t ⟨hg, hs, -⟩
  have hin : ip ∈ ip :: lk := List.mem_cons_self
  have hdin : t.din ip = s.dinode ip := by
    rw [← hs.dinode]
    exact hg.synced ip (hg.held ip hin).1 (hg.held ip hin).2
  have hfile : IsFile sb ip t := ⟨hg.inos_eq hin ▸ hg.blocks, by rwa [hdin]⟩
  refine (readi_stores hfile hoff huint room).bind ?_
  rintro ⟨r, out⟩ _ ⟨rfl, hread⟩
  rw [hdin] at hread
  refine (iunlock_spec hg hl).bind fun _ u _ => upTo_pure ?_
  exact asked_inode (h.size_le ht) hoff hlo hhi hread

/-- A read of any open file delivers no more than was asked, in its result and in the user's
memory, unless it is one with a negative length from an inode at an offset below `-n` and below
the size, into a buffer whose first byte can be written. -/
theorem fileread_asked_iff (h : Good sb s refs lk) (f : FileBody) (hu : f.Usable s refs lk)
    (killed readable : Bool) (room : Nat) (n : Int) (hlo : -2 ^ 31 ≤ n) (hhi : n < 2 ^ 31)
    (got : List UInt8) (hgot : got.length ≤ n.toNat) :
    WpUpTo Never (fileread sb killed readable f room n got) (fun e _ =>
      (readable = true → Asked s f room n e) ↔ ¬ (readable = true ∧ Overruns s room n f)) s := by
  cases readable with
  | false => exact upTo_pure (iff_of_true (fun he => by cases he) (fun he => by cases he.1))
  | true =>
    simp only [true_and, forall_const]
    cases f with
    | none => exact hu.elim
    | inode ip off => exact fileread_inode h hu hlo hhi killed got
    | pipe pi =>
      unfold fileread
      simp only [Bool.not_true, Bool.false_eq_true, if_false]
      split
      · split
        · exact upTo_pure (iff_of_true ⟨by omega, by omega, by simp, fun _ _ he => by cases he⟩ id)
        · exact upTo_pure (iff_of_true (Nat.zero_le _) id)
      · have hle := copyLoop_le (· < room) n.toNat 0 pi
        generalize PipeSys.copyLoop (· < room) n.toNat 0 pi = r at hle ⊢
        obtain ⟨pi', bs, i⟩ := r
        have hi : i ≤ n.toNat := by simpa using hle
        dsimp only
        refine upTo_pure (iff_of_true ⟨by omega, by omega, ?_, fun _ _ he => by cases he⟩ id)
        exact (List.length_take_le ..).trans hi
    | device major c =>
      unfold fileread
      simp only [Bool.not_true, Bool.false_eq_true, if_false]
      split
      · exact upTo_pure (iff_of_true ⟨by omega, by omega, by simp, fun _ _ he => by cases he⟩ id)
      · have hin := consoleread_within killed n.toNat (n.toNat - got.length) (· < room) got c
          (by omega)
        split
        · rename_i hread
          rw [hread] at hin
          obtain ⟨hr, hle, hlen⟩ := hin
          exact upTo_pure (iff_of_true ⟨hr, by omega, hlen, fun _ _ he => by cases he⟩ id)
        · rename_i hread
          rw [hread] at hin
          exact upTo_pure (iff_of_true hin id)

theorem fileread_asked_root : WpUpTo Never (fileread mkfsSuper false true (.inode ROOTINO 0) 5 5 [])
    (fun e _ => (true = true → Asked mkfsImage (.inode ROOTINO 0) 5 5 e) ↔
      ¬ (true = true ∧ Overruns mkfsImage 5 5 (.inode ROOTINO 0))) mkfsImage :=
  fileread_asked_iff mkfsImage_good (.inode ROOTINO 0) ⟨by decide, by decide, by decide, by decide⟩ false true 5 5
    (by decide) (by decide) [] (by decide)

def FileReadEnd.got : FileReadEnd → Option (Int × Nat)
  | .returned r out _ => some (r, out.length)
  | .asleep _ _ => none

/-- `read(fd, buf, -1)` of the root directory: all its 1024 bytes go to the buffer. -/
theorem negative_read_overruns : Good mkfsSuper mkfsImage [ROOTINO] [] ∧
    ∃ out f t, fileread mkfsSuper false true (.inode ROOTINO 0) 4096 (-1) [] mkfsImage =
      .ok (.returned 1024 out f, t) ∧ out.length = 1024 := by
  refine ⟨mkfsImage_good, ?_⟩
  obtain ⟨⟨⟨f, out⟩ | ⟨r, out, f⟩, t⟩, hrun, heval⟩ := ActionRun.Ends.exists_ok
    (r := fileread mkfsSuper false true (.inode ROOTINO 0) 4096 (-1) [] mkfsImage)
    (P := fun x => x.1.got = some (1024, 1024)) (by decide +kernel)
  · cases heval
  · obtain ⟨rfl, hlen⟩ := Prod.mk.inj (Option.some.inj heval)
    exact ⟨out, f, t, hrun, hlen⟩

end Xv6
