import Xv6.BcacheData
import Xv6.BcacheSystem
import Xv6.CrashAtomicity
import Xv6.OpCount

/-! The invariant of the processes that share the buffer cache and the log, and what
the steps of `commit` do to it. -/

namespace Xv6

open Function

/-- What a process knows of a buffer it got from `bget` and has not released. -/
def Bcache.Owns {P : Type} (c : Bcache P) (p : P) (b : BufId) (k : Nat) : Prop :=
  (c.buf b).dev = ROOTDEV ∧ (c.buf b).blockno = k ∧
    (c.io p = .acquiring b ∨ (c.buf b).lock = some p)

def Copied {P : Type} (c : Bcache P) (l : Log) (m : Nat) : Prop :=
  ∀ i < m, c.latest (l.start + i + 1) = c.latest (l.lh.block i)

def CommitInv {P : Type} (c : Bcache P) (l : Log) (p : P) : CommitPc → Prop
  | .commit => True
  | .logTo t => t ≤ l.lh.n ∧ Copied c l t
  | .logFrom t dst => t < l.lh.n ∧ Copied c l t ∧ c.Owns p dst (l.start + t + 1)
  | .logCopy t dst src => t < l.lh.n ∧ Copied c l t ∧ c.Owns p dst (l.start + t + 1) ∧
      c.Owns p src (l.lh.block t)
  | .logWrite t dst src | .logDropFrom t dst src => t < l.lh.n ∧ Copied c l (t + 1) ∧
      c.Owns p dst (l.start + t + 1) ∧ c.Owns p src (l.lh.block t)
  | .logDropTo t dst => t < l.lh.n ∧ Copied c l (t + 1) ∧ c.Owns p dst (l.start + t + 1)
  | .headRead clear => if clear then l.lh.n = 0 else Copied c l l.lh.n
  | .headEdit clear hb | .headWrite clear hb | .headDrop clear hb =>
      (if clear then l.lh.n = 0 else Copied c l l.lh.n) ∧ c.Owns p hb l.start
  | .instLog t => t ≤ l.lh.n ∧ Copied c l l.lh.n
  | .instDst t lbuf => t < l.lh.n ∧ Copied c l l.lh.n ∧ c.Owns p lbuf (l.start + t + 1)
  | .instCopy t lbuf dbuf | .instWrite t lbuf dbuf | .instDropLog t lbuf dbuf =>
      t < l.lh.n ∧ Copied c l l.lh.n ∧ c.Owns p lbuf (l.start + t + 1) ∧
      c.Owns p dbuf (l.lh.block t)
  | .instUnpin t lbuf dbuf => t < l.lh.n ∧ Copied c l l.lh.n ∧
      c.Owns p lbuf (l.start + t + 1) ∧ c.Owns p dbuf (l.lh.block t) ∧
      c.disk (l.lh.block t) = c.latest (l.lh.block t)
  | .instDropDst t dbuf => t < l.lh.n ∧ Copied c l l.lh.n ∧ c.Owns p dbuf (l.lh.block t)
  | .finish => l.lh.n = 0

def CommitPc.pins (blocks : List Nat) : CommitPc → List Nat
  | .instLog t | .instDst t _ | .instCopy t _ _ | .instWrite t _ _ | .instUnpin t _ _ =>
      blocks.drop t
  | .instDropLog t _ _ | .instDropDst t _ => blocks.drop (t + 1)
  | _ => blocks

def CommitPc.mods : CommitPc → Option BufId
  | .logWrite _ dst _ => some dst
  | .headWrite _ hb => some hb
  | .instWrite _ _ dbuf => some dbuf
  | _ => none

def FsPc.mods : FsPc → BufId → Prop
  | .inOp dirty, b => b ∈ dirty
  | .inCommit x, b => x.mods = some b
  | _, _ => False

def FsPc.kind : FsPc → OpKind
  | .outside => .outside
  | .asleep => .asleep
  | .woken => .woken
  | .inOp _ => .inOp
  | .inCommit _ => .inCommit

theorem FsPc.kind_update {P : Type} [DecidableEq P] (pc : P → FsPc) (p : P) (x : FsPc) :
    (fun q => (update pc p x q).kind) =
      update (fun q => (pc q).kind) p x.kind :=
  Function.comp_update FsPc.kind pc p x

theorem FsPc.kind_wake (x : FsPc) : x.wake.kind = x.kind.wake := by
  cases x <;> rfl

structure BioInv {P : Type} [Fintype P] (s : BioSystem P) : Prop where
  op : OpInv s.log fun p => (s.pc p).kind
  nodup : s.log.lh.blocks.Nodup
  home : ∀ i < s.log.lh.n, Home s.log.start s.log.size (s.log.lh.block i)
  room : s.log.lh.n = 0 ∨ s.log.lh.n < s.log.size
  idle : (∀ p, (s.pc p).kind ≠ .inCommit) →
    CacheInv s.cache s.log.lh.blocks fun p => (s.pc p).mods
  commit : ∀ p x, s.pc p = .inCommit x →
    CacheInv s.cache (x.pins s.log.lh.blocks) (fun p => (s.pc p).mods) ∧
      CommitInv s.cache s.log p x

namespace CacheInv

variable {P : Type} [Fintype P] {c c' : Bcache P} {pins pins' : List Nat} {mod mod' : P → BufId → Prop}
  {p : P} {b : BufId} {k : Nat}

theorem mod_congr (h : CacheInv c pins mod) (hm : ∀ p b, mod' p b ↔ mod p b) :
    CacheInv c pins mod' :=
  ⟨h.lru, h.ref, h.data.mod_congr hm⟩

theorem owned (h : CacheInv c pins mod) (ho : c.Owns p b k) : 0 < (c.buf b).refcnt := by
  rcases ho.2.2 with hio | hl
  · exact h.ref.refcnt_pos_of_io (p := p) (by simp [hio, Io.refs])
  · exact h.ref.refcnt_pos_of_lock hl

theorem owned_data (h : CacheInv c pins mod) (ho : c.Owns p b k) (hp : c.io p = .idle) :
    (c.buf b).lock = some p ∧ (c.buf b).data = c.latest k := by
  obtain ⟨hdev, hno, hio | hl⟩ := ho
  · rw [hp] at hio; cases hio
  · have hv := h.data.held p b hl (by simp [hp])
    exact ⟨hl, hno ▸ h.data.data b hdev hv⟩

variable [DecidableEq P]

theorem bget (h : CacheInv c pins mod) (hp : c.io p = .idle) (hg : c.bget p ROOTDEV k = .ok (c', b)) :
    CacheInv c' pins mod := by
  rcases Bcache.bget_ok hg with ⟨hf, rfl⟩ | ⟨hf, hu, rfl⟩
  · have hdev := (h.lru.findCached_some hf).1
    have hrefs : ∀ a, ∃ n, update c.buf b
        { c.buf b with refcnt := (c.buf b).refcnt + 1 } a = { c.buf a with refcnt := n } ∧
        (n = 0 → (c.buf a).refcnt = 0) := by
      intro a
      by_cases he : a = b
      · subst a; exact ⟨_, update_self b _ c.buf, by omega⟩
      · exact ⟨_, update_of_ne he _ c.buf, id⟩
    refine ⟨h.lru.congr rfl rfl rfl rfl ?_, h.ref.hit hp hdev, h.data.congr ?_ ?_ rfl rfl rfl⟩
    · intro a ha
      obtain ⟨n, hn, hz⟩ := hrefs a
      simp only [Bcache.setIo, Bcache.setBuf, hn] at ha
      exact hz ha
    · intro a
      obtain ⟨n, hn, _⟩ := hrefs a
      exact ⟨n, hn⟩
    · intro q a
      by_cases he : q = p
      · subst q; simp [Bcache.setIo, hp]
      · simp [Bcache.setIo, Bcache.setBuf, update_of_ne he]
  · have hnone := h.lru.findCached_none hf
    have hzero := (h.lru.findUnused_some hu).1
    have hk : k ∉ pins := by
      intro hm
      obtain ⟨a, hd, hno, _⟩ := h.data.pinned k hm
      exact hnone a ⟨hd, hno⟩
    refine ⟨h.lru.congr rfl rfl rfl rfl ?_, h.ref.recycle hp hnone hk hzero,
      h.data.recycle h.ref hp hzero⟩
    intro a ha
    by_cases he : a = b
    · subst a; exact hzero
    · simpa [Bcache.setIo, Bcache.setBuf, update_of_ne he] using ha

theorem acquire (h : CacheInv c pins mod) (p : P) : CacheInv (c.acquiresleep p) pins mod := by
  refine ⟨?_, h.ref.acquire p, h.data.acquire p⟩
  unfold Bcache.acquiresleep
  split
  · rename_i b _
    split
    · refine h.lru.congr rfl rfl rfl rfl fun a ha => ?_
      by_cases he : a = b
      · subst a; simpa [Bcache.setIo, Bcache.setBuf] using ha
      · simpa [Bcache.setIo, Bcache.setBuf, update_of_ne he] using ha
    · exact h.lru
  · exact h.lru

theorem fill (h : CacheInv c pins mod) (p : P) : CacheInv (c.fill p) pins mod := by
  refine ⟨?_, h.ref.fill (h.data.filling p), h.data.fill h.ref p⟩
  cases hio : c.io p with
  | filling b =>
    rw [h.data.fill_eq h.ref hio]
    refine h.lru.congr rfl rfl rfl rfl fun a ha => ?_
    by_cases he : a = b
    · subst a; simpa [Bcache.setIo, Bcache.setBuf] using ha
    · simpa [Bcache.setIo, Bcache.setBuf, update_of_ne he] using ha
  | _ => simpa [Bcache.fill, hio] using h.lru

theorem release (h : CacheInv c pins mod) (hp : c.io p = .idle) (hmod : ¬ mod p b)
    (hr : c.releasesleep p b = .ok c') : CacheInv c' pins mod := by
  have href := h.ref.release hp hr
  have hold := hr
  unfold Bcache.releasesleep at hold
  split at hold
  swap
  · cases hold
  rename_i hlock
  have hdev := h.ref.dev b (h.ref.refcnt_pos_of_lock hlock)
  refine ⟨?_, href, h.data.release hp hdev hmod hr⟩
  cases hold
  refine h.lru.congr rfl rfl rfl rfl fun a ha => ?_
  by_cases he : a = b
  · subst a; simpa [Bcache.setIo, Bcache.setBuf] using ha
  · simpa [Bcache.setIo, Bcache.setBuf, update_of_ne he] using ha

theorem drop (h : CacheInv c pins mod) (p : P) : CacheInv (c.drop p) pins mod := by
  refine ⟨h.lru.drop p, h.ref.drop p, ?_⟩
  unfold Bcache.drop
  split
  swap
  · exact h.data
  rename_i b hio
  have hbuf : ∀ a, ∃ n, update c.buf b
      { c.buf b with refcnt := (c.buf b).refcnt - 1 } a = { c.buf a with refcnt := n } := by
    intro a
    by_cases he : a = b
    · subst a; exact ⟨_, update_self b _ c.buf⟩
    · exact ⟨_, update_of_ne he _ c.buf⟩
  have hfill : ∀ q a, update c.io p .idle q = .filling a ↔ c.io q = .filling a := by
    intro q a
    by_cases he : q = p
    · subst q; simp [hio]
    · rw [update_of_ne he]
  simp only
  split
  · exact h.data.congr hbuf hfill rfl rfl rfl
  · exact h.data.congr hbuf hfill rfl rfl rfl

omit [DecidableEq P] in
theorem store (h : CacheInv c pins mod) (data : Buffer) (hp : c.io p = .idle)
    (hlock : (c.buf b).lock = some p) (hmod : ∀ q a, mod' q a ↔ mod q a ∨ q = p ∧ a = b) :
    CacheInv (c.store b data) pins mod' := by
  have hbuf : ∀ a, ∃ d, update c.buf b { c.buf b with data := data } a =
      { c.buf a with data := d } := by
    intro a
    by_cases he : a = b
    · subst a; exact ⟨_, update_self b _ c.buf⟩
    · exact ⟨_, update_of_ne he _ c.buf⟩
  refine ⟨h.lru.congr rfl rfl rfl rfl ?_, ⟨?_, ?_, ?_⟩,
    h.data.store h.ref data hlock (by simp [hp]) hmod⟩
  · intro a ha
    obtain ⟨d, hd⟩ := hbuf a
    simpa [Bcache.store, Bcache.setBuf, hd] using ha
  · intro a ha
    obtain ⟨d, hd⟩ := hbuf a
    simp only [Bcache.store, Bcache.setBuf, hd] at ha ⊢
    exact h.ref.dev a ha
  · intro a a' h1 h2 h3
    obtain ⟨d, hd⟩ := hbuf a
    obtain ⟨d', hd'⟩ := hbuf a'
    simp only [Bcache.store, Bcache.setBuf, hd, hd'] at h1 h2 h3
    exact h.ref.uniq a a' h1 h2 h3
  · intro a
    obtain ⟨d, hd⟩ := hbuf a
    simpa [Bcache.store, Bcache.setBuf, hd] using h.ref.refs a

theorem bwrite (h : CacheInv c pins mod) (hp : c.io p = .idle) (hw : c.bwrite p b = .ok c')
    (hmod : ∀ q a, mod' q a ↔ mod q a ∧ ¬ (q = p ∧ a = b)) : CacheInv c' pins mod' := by
  have hold := hw
  unfold Bcache.bwrite at hold
  split at hold
  swap
  · cases hold
  rename_i hlock
  have hdev := h.ref.dev b (h.ref.refcnt_pos_of_lock hlock)
  have hdata := h.data.bwrite hp hdev hw hmod
  cases hold
  exact ⟨h.lru.congr rfl rfl rfl rfl (fun a ha => ha), ⟨h.ref.dev, h.ref.uniq, h.ref.refs⟩, hdata⟩

omit [DecidableEq P] in
theorem pin (h : CacheInv c pins mod) (hp : c.io p = .idle) (hlock : (c.buf b).lock = some p)
    (hnew : (c.buf b).blockno ∉ pins)
    (hpins : ∀ k, k ∈ pins' ↔ k ∈ pins ∨ k = (c.buf b).blockno)
    (hmod : ∀ q a, mod' q a ↔ mod q a ∧ ¬ (q = p ∧ a = b)) :
    CacheInv (c.bpin b) pins' mod' := by
  have hdev := h.ref.dev b (h.ref.refcnt_pos_of_lock hlock)
  refine ⟨h.lru.congr rfl rfl rfl rfl ?_, h.ref.pin hdev hnew hpins,
    (h.data.pin hdev hlock (by simp [hp]) hpins hmod).congr ?_ (fun _ _ => Iff.rfl) rfl rfl rfl⟩
  · intro a ha
    by_cases he : a = b
    · subst a; simp [Bcache.bpin, Bcache.setBuf] at ha
    · simpa [Bcache.bpin, Bcache.setBuf, update_of_ne he] using ha
  · intro a
    by_cases he : a = b
    · subst a; exact ⟨_, update_self b _ c.buf⟩
    · exact ⟨_, update_of_ne he _ c.buf⟩

omit [DecidableEq P] in
theorem unpin (h : CacheInv c pins mod) (hlock : (c.buf b).lock = some p)
    (hdisk : c.disk (c.buf b).blockno = c.latest (c.buf b).blockno)
    (hold : (c.buf b).blockno ∉ pins')
    (hpins : ∀ k, k ∈ pins ↔ k ∈ pins' ∨ k = (c.buf b).blockno) :
    CacheInv (c.bunpin b) pins' mod := by
  have hdev := h.ref.dev b (h.ref.refcnt_pos_of_lock hlock)
  have hmem : (c.buf b).blockno ∈ pins := (hpins _).mpr (.inr rfl)
  have htwo : 2 ≤ (c.buf b).refcnt := by
    have href := h.ref.refs b
    simp only [hlock, hdev, hmem, Option.isSome_some, and_self, if_true] at href
    omega
  refine ⟨h.lru.congr rfl rfl rfl rfl ?_, h.ref.unpin hdev hold hpins,
    (h.data.unpin hdisk hpins).congr ?_ (fun _ _ => Iff.rfl) rfl rfl rfl⟩
  · intro a ha
    by_cases he : a = b
    · subst a
      simp only [Bcache.bunpin, Bcache.setBuf, update_self] at ha
      omega
    · simpa [Bcache.bunpin, Bcache.setBuf, update_of_ne he] using ha
  · intro a
    by_cases he : a = b
    · subst a; exact ⟨_, update_self b _ c.buf⟩
    · exact ⟨_, update_of_ne he _ c.buf⟩

end CacheInv

end Xv6
