import Xv6.FsImage

/-! `writei` with its calls of `log_write`. The blocks it passes to the log are recorded by
number beside the state of `Fs`. -/

namespace Xv6

open StateProg

structure Areas where
  inodestart : Nat
  bmapstart : Nat

abbrev BPB : Nat := BSIZE * 8

def Areas.bblock (a : Areas) (b : Nat) : Nat := b / BPB + a.bmapstart

def Areas.iblock (a : Areas) (i : Nat) : Nat := i / Fs.IPB + a.inodestart

/-- The file system inside a transaction: `logged` are the blocks passed to `log_write` since
`begin_op`, the last one first. -/
structure FsTxn where
  fs : Fs
  logged : List Nat

abbrev FsTxnM := Prog FsTxn FsPanic

namespace FsTxn

def onFs {α : Type} (m : FsM α) : FsTxnM α := fun x =>
  match m x.fs with
  | .ok (a, s) => .ok (a, { x with fs := s })
  | .error e => .error e

def logWrite (b : Nat) : FsTxnM Unit := modify fun x => { x with logged := b :: x.logged }

def beginOp : FsTxnM Unit := modify fun x => { x with logged := [] }

def endOp : FsTxnM (List Nat) := do
  let x ← get
  modify fun x => { x with logged := [] }
  pure x.logged

variable (sb : Superblock) (a : Areas)

def bzero (b : Nat) : FsTxnM Unit := do
  onFs (modify fun s => s.setData b (fun _ => 0))
  logWrite b

def balloc : FsTxnM Nat := do
  let s ← onFs get
  match (List.range sb.size).find? (fun b => !s.bitmap b) with
  | some b =>
    onFs (modify fun s => s.setBit b true)
    logWrite (a.bblock b)
    bzero b
    pure b
  | none => pure 0

def iupdate (ip : Nat) : FsTxnM Unit := do
  onFs (Fs.iupdate ip)
  logWrite (a.iblock ip)

def bmapIndirect (ip : Nat) : FsTxnM Nat := do
  let s ← onFs get
  if (s.din ip).addrs NDIRECT = 0 then
    let addr ← balloc sb a
    if addr = 0 then pure 0
    else
      onFs (modify fun s => s.setAddr ip NDIRECT addr)
      pure addr
  else pure ((s.din ip).addrs NDIRECT)

def bmap (ip bn : Nat) : FsTxnM Nat := do
  let s ← onFs get
  if bn < NDIRECT then
    if (s.din ip).addrs bn = 0 then
      let addr ← balloc sb a
      if addr = 0 then pure 0
      else
        onFs (modify fun s => s.setAddr ip bn addr)
        pure addr
    else pure ((s.din ip).addrs bn)
  else if bn - NDIRECT < NINDIRECT then
    let ind ← bmapIndirect sb a ip
    if ind = 0 then pure 0
    else
      let s ← onFs get
      if Fs.word (s.data ind) (bn - NDIRECT) = 0 then
        let addr ← balloc sb a
        if addr = 0 then pure 0
        else
          onFs (modify fun s => s.setData ind (Fs.setWord (s.data ind) (bn - NDIRECT) addr))
          logWrite ind
          pure addr
      else pure (Fs.word (s.data ind) (bn - NDIRECT))
  else throw .bmapRange

def writeLoop (ip : Nat) (src : List UInt8) (n : Nat) : Nat → Nat → Nat → FsTxnM Nat
  | 0, tot, _ => pure tot
  | fuel + 1, tot, off => do
    if tot < n then
      let addr ← bmap sb a ip (off / BSIZE)
      if addr = 0 then pure tot
      else
        let m := min (n - tot) (BSIZE - off % BSIZE)
        let bytes := (src.drop tot).take m
        onFs (modify fun s => s.setData addr ((s.data addr).write (off % BSIZE) bytes))
        if bytes.length < m then pure tot
        else
          logWrite addr
          writeLoop ip src n fuel (tot + m) (off + m)
    else pure tot

def writei (ip : Nat) (src : List UInt8) (off n : Nat) : FsTxnM Int := do
  let s ← onFs get
  if (s.din ip).size < off ∨ (off + n) % 2 ^ 32 < off then pure (-1)
  else if MAXFILE * BSIZE < off + n then pure (-1)
  else
    let tot ← writeLoop sb a ip src n (n + 1) 0 off
    let s ← onFs get
    if (s.din ip).size < off + tot then
      onFs (modify fun s => s.setDin ip { s.din ip with size := off + tot })
    else pure ()
    iupdate a ip
    pure tot

variable {sb : Superblock} {a : Areas} {x : FsTxn} {α : Type}

theorem erases_onFs (m : FsM α) : Erases FsTxn.fs (onFs m) m := by
  intro x
  unfold onFs
  cases m x.fs <;> rfl

theorem erases_logWrite (b : Nat) : Erases FsTxn.fs (logWrite b) (pure ()) := fun _ => rfl

theorem erases_balloc : Erases FsTxn.fs (balloc sb a) (Fs.balloc sb) := by
  refine (erases_onFs get).bind fun s => ?_
  cases (List.range sb.size).find? (fun b => !s.bitmap b) with
  | none => exact erases_pure 0
  | some b => exact fun x => rfl

theorem erases_fillAddr (ip k : Nat) :
    Erases FsTxn.fs (do
      let addr ← balloc sb a
      if addr = 0 then pure 0
      else
        onFs (modify fun s => s.setAddr ip k addr)
        pure addr) (do
      let addr ← Fs.balloc sb
      if addr = 0 then pure 0
      else
        modify fun s => s.setAddr ip k addr
        pure addr) :=
  erases_balloc.bind fun addr =>
    (erases_pure 0).ite ((erases_onFs _).bind fun _ => erases_pure addr)

theorem erases_bmapIndirect (ip : Nat) :
    Erases FsTxn.fs (bmapIndirect sb a ip) (Fs.bmapIndirect sb ip) :=
  (erases_onFs get).bind fun _ => (erases_fillAddr ip NDIRECT).ite (erases_pure _)

theorem erases_bmap (ip bn : Nat) : Erases FsTxn.fs (bmap sb a ip bn) (Fs.bmap sb ip bn) := by
  refine (erases_onFs get).bind fun s => ?_
  refine ((erases_fillAddr ip bn).ite (erases_pure _)).ite (Erases.ite ?_ fun _ => rfl)
  refine (erases_bmapIndirect ip).bind fun ind => (erases_pure 0).ite ?_
  refine (erases_onFs get).bind fun s => Erases.ite ?_ (erases_pure _)
  refine erases_balloc.bind fun addr => (erases_pure 0).ite ?_
  exact (erases_onFs _).bind fun _ => (erases_logWrite ind).before (erases_pure addr)

theorem erases_writeLoop (ip : Nat) (src : List UInt8) (n fuel tot off : Nat) :
    Erases FsTxn.fs (writeLoop sb a ip src n fuel tot off) (Fs.writeLoop sb ip src n fuel tot off) := by
  induction fuel generalizing tot off with
  | zero => exact erases_pure tot
  | succ fuel ih =>
    refine Erases.ite ?_ (erases_pure tot)
    refine (erases_bmap ip _).bind fun addr => (erases_pure tot).ite ?_
    refine (erases_onFs _).bind fun _ => (erases_pure tot).ite ?_
    exact (erases_logWrite addr).before (ih _ _)

theorem erases_writei (ip : Nat) (src : List UInt8) (off n : Nat) :
    Erases FsTxn.fs (writei sb a ip src off n) (Fs.writei sb ip src off n) := by
  have hlast (tot : Int) : Erases FsTxn.fs (do iupdate a ip; pure tot) (do Fs.iupdate ip; pure tot) :=
    fun x => rfl
  refine (erases_onFs get).bind fun s => (erases_pure _).ite ((erases_pure _).ite ?_)
  refine (erases_writeLoop ip src n _ _ _).bind fun tot => (erases_onFs get).bind fun s => ?_
  exact Erases.ite ((erases_onFs _).bind fun _ => hlast tot) (hlast tot)

end FsTxn

end Xv6
