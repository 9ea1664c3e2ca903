import Xv6.FsResolve

/-! A file as a growable array of bytes: what any sequence of `writei` and `readi` calls on one
inode does. -/

namespace Xv6

namespace Fs

open BlockOwner StateProg

variable {sb : Superblock} {s t u : Fs} {ip : Nat}

def contents (s : Fs) (ip : Nat) : List UInt8 :=
  (view s.data (s.din ip)).slice 0 (s.din ip).size

theorem length_slice (v : FileView) (off n : Nat) : (v.slice off n).length = n := by
  rw [FileView.slice, List.length_map, List.length_range]

theorem length_contents : (contents s ip).length = (s.din ip).size := length_slice _ _ _

theorem getElem?_slice (v : FileView) (off n i : Nat) :
    (v.slice off n)[i]? = if i < n then some (v.byte (off + i)) else none := by
  rw [FileView.slice, List.getElem?_map]
  split
  · rw [List.getElem?_range ‹_›, Option.map_some]
  · rw [List.getElem?_eq_none (by rw [List.length_range]; omega), Option.map_none]

theorem getElem?_contents (i : Nat) : (contents s ip)[i]? =
    if i < (s.din ip).size then some ((view s.data (s.din ip)).byte i) else none := by
  rw [contents, getElem?_slice, Nat.zero_add]

theorem slice_contents {off n : Nat} (h : off + n ≤ (s.din ip).size) :
    (view s.data (s.din ip)).slice off n = ((contents s ip).drop off).take n := by
  apply List.ext_getElem?
  intro i
  rw [getElem?_slice]
  by_cases hi : i < n
  · rw [if_pos hi, List.getElem?_take_of_lt hi, List.getElem?_drop, getElem?_contents,
      if_pos (by omega)]
  · rw [if_neg hi, List.getElem?_eq_none]
    rw [List.length_take]
    omega

structure IsFile (sb : Superblock) (ip : Nat) (s : Fs) : Prop where
  blocks : Blocks sb s.bitmap s.data (s.inos ip)
  typed : (s.din ip).type ≠ .none

/-- One call. For a write the first `n` bytes of `src` can be read; `room` is how much of the
destination of a read can be written. -/
inductive Access where
  | write (off n : Nat) (src : List UInt8) (hoff : off < 2 ^ 32) (hn : n < 2 ^ 32)
      (hsrc : n ≤ src.length)
  | read (room off n : Nat) (hoff : off < 2 ^ 32) (hn : n < 2 ^ 32)

def Access.exec (sb : Superblock) (ip : Nat) : Access → FsM (Int × List UInt8)
  | .write off n src _ _ _ => do
    let r ← writei sb ip src off n
    pure (r, [])
  | .read room off n _ _ => readi sb ip room off n

def accesses (sb : Superblock) (ip : Nat) : List Access → FsM (List (Int × List UInt8))
  | [] => pure []
  | call :: calls => do
    let r ← call.exec sb ip
    let rs ← accesses sb ip calls
    pure (r :: rs)

/-- When `writei` refuses: beyond the end, or the range does not fit 32 bits or a file. -/
def Refused (ip off n : Nat) (s : Fs) : Prop :=
  (s.din ip).size < off ∨ 2 ^ 32 ≤ off + n ∨ MAXFILE * BSIZE < off + n

structure Spliced (sb : Superblock) (ip off n : Nat) (src : List UInt8) (tot : Nat) (s t : Fs) :
    Prop where
  le : tot ≤ n
  short : tot < n → free sb.size t.bitmap = 0
  contents : contents t ip = splice (contents s ip) off (src.take tot)
  size : (t.din ip).size = max (s.din ip).size (off + tot)
  others : ∀ i, i ≠ ip → view t.data (t.dinode i) = view s.data (s.dinode i)

def Delivered (ip room off n : Nat) (s : Fs) (r : Int × List UInt8) : Prop :=
  if (s.din ip).size < off ∨ 2 ^ 32 ≤ off + n then r = (0, [])
  else min n ((s.din ip).size - off) ≤ room →
    r = (((min n ((s.din ip).size - off) : Nat) : Int), ((contents s ip).drop off).take n)

def Access.Result (sb : Superblock) (ip : Nat) : Access → Fs → Int × List UInt8 → Fs → Prop
  | .write off n src _ _ _, s, r, t =>
    (Refused ip off n s ∧ r = (-1, []) ∧ t = s) ∨
      (¬ Refused ip off n s ∧ ∃ tot : Nat, r = ((tot : Int), []) ∧ Spliced sb ip off n src tot s t)
  | .read room off n _ _, s, r, t => t = s ∧ Delivered ip room off n s r

def Results (sb : Superblock) (ip : Nat) : List Access → Fs → List (Int × List UInt8) → Fs → Prop
  | [], s, rs, t => rs = [] ∧ t = s
  | call :: calls, s, rs, t =>
    ∃ r rest u, rs = r :: rest ∧ call.Result sb ip s r u ∧ Results sb ip calls u rest t

section

variable {A : FsPanic → Prop} {off n m : Nat} {src : List UInt8}

theorem writei_refused (hoff : off < 2 ^ 32) (hn : n < 2 ^ 32) (h : Refused ip off n s)
    (src : List UInt8) : WpUpTo A (writei sb ip src off n) (fun r t => r = -1 ∧ t = s) s := by
  apply upTo_bind_get
  unfold Refused at h
  split
  · exact upTo_pure ⟨rfl, rfl⟩
  · rw [if_pos (by omega)]
    exact upTo_pure ⟨rfl, rfl⟩

theorem Written.contents (hm : m ≤ src.length) (hoff : off ≤ (s.din ip).size)
    (h : Written sb ip s t off m m (fun k => src.getD k 0)) :
    contents t ip = splice (contents s ip) off (src.take m) := by
  have hlen : (src.take m).length = m := by
    rw [List.length_take]
    omega
  have hsize : (t.din ip).size = max (s.din ip).size (off + m) := h.same.size
  apply List.ext_getElem?
  intro i
  rw [getElem?_splice (by rwa [length_contents]), getElem?_contents, getElem?_contents, h.self, hlen,
    hsize]
  simp only [FileView.write]
  by_cases hin : off ≤ i ∧ i < off + m
  · rw [if_pos (by omega), if_pos hin, if_pos ⟨hin.1, hin.2, by omega⟩,
      List.getElem?_take_of_lt (by omega), List.getElem?_eq_getElem (by omega),
      List.getD_eq_getElem?_getD, List.getElem?_eq_getElem (by omega), Option.getD_some]
  · have hlt : i < max (s.din ip).size (off + m) ↔ i < (s.din ip).size := by omega
    rw [if_neg hin, if_neg fun hc : off ≤ i ∧ i < off + m ∧ _ => hin ⟨hc.1, hc.2.1⟩]
    exact if_congr hlt rfl rfl

theorem Written.isFile {w : Nat} {f : Nat → UInt8} (h : Written sb ip s t off m w f)
    (ht : (s.din ip).type ≠ .none) : IsFile sb ip t where
  blocks := by
    have hinos : t.inos ip = t.dinode := by
      rw [inos, h.dinode, Function.update_idem]
    rw [hinos]
    exact h.blocks
  typed := by
    rw [h.same.type]
    exact ht

theorem IsFile.writei (h : IsFile sb ip s) (src : List UInt8) (off n : Nat) :
    WpUpTo A (writei sb ip src off n) (fun _ t => IsFile sb ip t) s := by
  refine (writei_spec h.blocks h.typed src off n).mono ?_
  rintro r t (⟨-, rfl, -⟩ | ⟨m, w, -, -, -, -, -, -, hw⟩)
  · exact h
  · exact hw.isFile h.typed

theorem writei_splices (h : IsFile sb ip s) (hok : ¬ Refused ip off n s) (hsrc : n ≤ src.length) :
    WpUpTo A (writei sb ip src off n) (fun r t => IsFile sb ip t ∧
      ∃ tot : Nat, r = tot ∧ Spliced sb ip off n src tot s t) s := by
  refine (writei_spec h.blocks h.typed src off n).mono ?_
  have hoff : off ≤ (s.din ip).size := Nat.le_of_not_lt fun hlt => hok (.inl hlt)
  rintro r t (⟨-, -, hbad⟩ | ⟨m, w, rfl, hm, hw, hfull, -, -, hwrote⟩)
  · exact absurd (hbad.imp_right .inr) hok
  · obtain rfl := hw hsrc
    exact ⟨hwrote.isFile h.typed, w, rfl, hm, fun hlt => (hfull hlt hsrc).1,
      hwrote.contents (Nat.le_trans hm hsrc) hoff, hwrote.same.size, hwrote.others⟩

theorem readi_delivers (h : IsFile sb ip s) (hoff : off < 2 ^ 32) (hn : n < 2 ^ 32) (room : Nat) :
    WpUpTo A (readi sb ip room off n) (fun r t => t = s ∧ Delivered ip room off n s r) s := by
  apply upTo_bind_get
  dsimp only
  by_cases hbad : (s.din ip).size < off ∨ 2 ^ 32 ≤ off + n
  · rw [if_pos (by omega)]
    exact upTo_pure ⟨rfl, (if_pos hbad).mpr rfl⟩
  · rw [if_neg (by omega)]
    have hcount : (if (s.din ip).size < off + n then (s.din ip).size - off else n) =
        min n ((s.din ip).size - off) := by
      split <;> omega
    rw [hcount]
    refine (readLoop_spec h.blocks h.typed _ _ _ _ (Nat.zero_le _) (by omega) (by omega)).mono ?_
    rintro r t ⟨rfl, hr⟩
    refine ⟨rfl, (if_neg hbad).mpr fun hroom => ?_⟩
    have hr := (hr.resolve_right fun hc => absurd hc.2.1 (by omega)).1
    rw [hr, List.nil_append, Nat.sub_zero, slice_contents (by omega)]
    rw [List.take_eq_take_iff.mpr]
    rw [List.length_drop, length_contents]
    omega

end

theorem Access.spec (h : IsFile sb ip s) (call : Access) : WpUpTo Never (call.exec sb ip)
    (fun r t => IsFile sb ip t ∧ call.Result sb ip s r t) s := by
  cases call with
  | write off n src hoff hn hsrc =>
    apply upTo_bind
    by_cases hbad : Refused ip off n s
    · refine (writei_refused hoff hn hbad src).mono ?_
      rintro r t ⟨rfl, rfl⟩
      exact upTo_pure ⟨h, .inl ⟨hbad, rfl, rfl⟩⟩
    · refine (writei_splices h hbad hsrc).mono ?_
      rintro r t ⟨hf, tot, rfl, hsp⟩
      exact upTo_pure ⟨hf, .inr ⟨hbad, tot, rfl, hsp⟩⟩
  | read room off n hoff hn =>
    refine (readi_delivers h hoff hn room).mono ?_
    rintro r t ⟨rfl, hr⟩
    exact ⟨h, rfl, hr⟩

/-- Every sequence of calls returns, and each of them does to the contents what it does to a
growable array. -/
theorem file_is_growable_array (h : IsFile sb ip s) (calls : List Access) :
    ∃ rs t, accesses sb ip calls s = .ok (rs, t) ∧ Results sb ip calls s rs t := by
  apply exists_of_never
  induction calls generalizing s with
  | nil => exact upTo_pure ⟨rfl, rfl⟩
  | cons call calls ih =>
    refine (call.spec h).bind ?_
    rintro r u ⟨hu, hr⟩
    refine (ih hu).bind ?_
    intro rest t hrest
    exact upTo_pure ⟨r, rest, u, rfl, hr, hrest⟩

theorem crowded_file : IsFile mkfsSuper 3 crowded where
  blocks := by
    have hinos : crowded.inos 3 = crowded.dinode := Function.update_eq_self 3 crowded.dinode
    rw [hinos]
    exact crowded_good.blocks
  typed := by decide

/-- An empty file is extended and read back from its second byte on. -/
theorem crowded_file_is_growable_array : ∃ rs t,
    accesses mkfsSuper 3 [.write 0 2 [7, 8] (by decide) (by decide) (by decide),
      .read 4 1 4 (by decide) (by decide)] crowded = .ok (rs, t) ∧
    Results mkfsSuper 3 [.write 0 2 [7, 8] (by decide) (by decide) (by decide),
      .read 4 1 4 (by decide) (by decide)] crowded rs t :=
  file_is_growable_array crowded_file _

end Fs

end Xv6
