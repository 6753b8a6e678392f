import Xv6pp.Fs.Files
import Xv6pp.Fs.Sysfile

/-!
# Reading and writing through one open file

Processes that share a `struct file` share its offset.  `file::read` is one call of `readi` under the
inode's lock; `file::write` is a loop of calls of `writei`, each under the lock and in a transaction of
its own, between which other processes may move the offset.  The steps of the machine here are these
calls, taken in any order by any processes; what else goes on in the file system may change anything
as long as the inode is not truncated (`Untruncated`).

The state keeps a record of the steps taken (`taken`), of the chunks that each call of `file::write`
has written, and of the offsets that have been overwritten from elsewhere.  The invariant is that the
steps tile the way from the first offset to the present one (`Tiles`): each of them begins where the
one before it ended.
-/

set_option autoImplicit false

namespace Xv6pp

open Prog FileSystem

/-! ## The machine -/

/-- The source of a write, `i` bytes after its beginning. -/
def Source.shift (src : Source) (i : Nat) : Source where
  bytes k := src.bytes (i + k)
  moves tot m := src.moves (i + tot) m
  moves_le tot m := src.moves_le (i + tot) m

/-- A call of `readi` or `writei`, with the offset it began at and its result. -/
structure Piece where
  /-- For a call of `writei`: the source of the whole write, and where in it this call begins. -/
  from? : Option (Source × Nat)
  off : Nat
  res : Int

/-- The number of bytes by which a call has moved the offset. -/
def Piece.len (p : Piece) : Nat := p.res.toNat

/-- A call of `file::write`. -/
structure WriteCall where
  src : Source
  n : Int
  /-- How many bytes are written. -/
  i : Nat
  /-- Whether the loop was left because of an error. -/
  broken : Bool
  /-- The chunks that were written. -/
  chunks : List Piece

/-- `while (i < n)`. -/
def WriteCall.loops (c : WriteCall) : Bool := !c.broken && decide ((c.i : Int) < c.n)

/-- `n1`: how many bytes the next round writes. -/
def WriteCall.n1 (c : WriteCall) : Nat := min (c.n - c.i).toNat Sysfile.maxWrite

/-- `ret = (i == n ? n : -1)`. -/
def WriteCall.ret (c : WriteCall) : Int := if (c.i : Int) = c.n then c.n else -1

/-- An open file that processes share. -/
structure SharedFile (ι : Type) where
  fs : Fs
  /-- `off`. -/
  off : Nat
  /-- The calls of `file::write` that are under way. -/
  calls : ι → Option WriteCall
  /-- The calls of `readi` and `writei`, in the order in which they were made. -/
  taken : List Piece
  /-- The calls of `file::write` that have returned. -/
  returned : List WriteCall
  /-- The offsets that were overwritten other than through this file. -/
  foreign : Nat → Prop

/-- What the processes do. -/
inductive ShareAct (ι : Type)
  /-- `file::read`; `dst` says which bytes can be delivered. -/
  | read (p : ι) (n : Int) (dst : Nat → List UInt8 → Bool)
  /-- A call of `file::write` begins. -/
  | write (p : ι) (n : Int) (src : Source)
  /-- One round of its loop. -/
  | round (p : ι)
  /-- It returns. -/
  | ret (p : ι)

namespace SharedFile

variable {ι : Type} [DecidableEq ι]

/-- `inode_lock_guard`: run `m` with the inode locked. -/
def guarded {α : Type} (ip : InodeId) (m : FsM α) : FsM α := do
  ilock ip
  let r ← m
  iunlock ip
  pure r

/-- `if (r > 0) off += r`, on a `uint`. -/
def advance (off : Nat) (r : Int) : Nat := if 0 < r then (off + r.toNat) % 2 ^ 32 else off

/-- One step of a process; `ip` is the inode of the file. -/
def step (ip : InodeId) (s : SharedFile ι) : ShareAct ι → Option (Except Panic (SharedFile ι))
  | .read p n dst =>
    match s.calls p with
    | some _ => none
    | none =>
      match (ideal (guarded ip (readi ip dst s.off (toUnsigned 32 n)))).run s.fs with
      | .error e => some (.error e)
      | .ok ((r, _), fs) =>
        some (.ok { s with
          fs := fs
          off := advance s.off r
          taken := s.taken ++ [⟨none, s.off, r⟩] })
  | .write p n src =>
    match s.calls p with
    | some _ => none
    | none => some (.ok { s with calls := Function.update s.calls p (some ⟨src, n, 0, false, []⟩) })
  | .round p =>
    match s.calls p with
    | none => none
    | some c =>
      if c.loops then
        match (ideal (guarded ip (writei ip (c.src.shift c.i).copy s.off c.n1))).run s.fs with
        | .error e => some (.error e)
        | .ok (r, fs) =>
          let piece : Piece := ⟨some (c.src, c.i), s.off, r⟩
          let c' : WriteCall :=
            if r ≠ c.n1 then { c with broken := true }
            else { c with i := c.i + c.n1, chunks := c.chunks ++ [piece] }
          some (.ok { s with
            fs := fs
            off := advance s.off r
            calls := Function.update s.calls p (some c')
            taken := s.taken ++ [piece] })
      else none
  | .ret p =>
    match s.calls p with
    | none => none
    | some c =>
      if c.loops then none
      else some (.ok { s with
        calls := Function.update s.calls p none
        returned := s.returned ++ [c] })

end SharedFile

/-- The inode `i` is in core and allocated, and its lock is free. -/
structure Ready (fs : Fs) (ip : InodeId) (i : Nat) : Prop where
  sane : fs.Sane
  core : Core fs ip i
  typed : (fs.dinode i).type ≠ 0
  free : (fs.inode ip).locked = false

/-- What goes on elsewhere in the file system, including the beginning and the end of transactions:
anything that does not shorten the file. -/
structure Untruncated (ip : InodeId) (i : Nat) (fs fs' : Fs) : Prop where
  ready : Ready fs' ip i
  size : (fs.dinode i).size ≤ (fs'.dinode i).size

/-- The states that can be reached from `s₀`. -/
inductive SharedFile.Reached {ι : Type} [DecidableEq ι] (ip : InodeId) (i : Nat) (s₀ : SharedFile ι) :
    SharedFile ι → Prop
  | refl : Reached ip i s₀ s₀
  | step {s s' : SharedFile ι} {a : ShareAct ι} (h : Reached ip i s₀ s)
      (ha : s.step ip a = some (.ok s')) : Reached ip i s₀ s'
  | other {s : SharedFile ι} {fs : Fs} (h : Reached ip i s₀ s) (hfs : Untruncated ip i s.fs fs) :
      Reached ip i s₀ { s with
        fs := fs
        foreign := fun o => s.foreign o ∨
          fs.fileByte fs.dinode i o ≠ s.fs.fileByte s.fs.dinode i o }

/-! ## Tilings -/

/-- The pieces lie end to end, in this order, from `lo` to `hi`. -/
def Tiles (lo : Nat) : List Piece → Nat → Prop
  | [], hi => hi = lo
  | p :: ps, hi => p.off = lo ∧ Tiles (lo + p.len) ps hi

/-- The pieces are the chunks of one source, in this order, from byte `i` to byte `j`, each of the
size that `file::write` chooses. -/
def Chunks (src : Source) (n : Int) : Nat → List Piece → Nat → Prop
  | i, [], j => j = i
  | i, p :: ps, j => p.from? = some (src, i) ∧ p.len = min (n - i).toNat Sysfile.maxWrite ∧
      Chunks src n (i + p.len) ps j

section
variable {lo hi i j : Nat} {p : Piece} {ps : List Piece} {src : Source} {n : Int}

theorem Tiles.snoc (h : Tiles lo ps hi) (hp : p.off = hi) : Tiles lo (ps ++ [p]) (hi + p.len) := by
  induction ps generalizing lo with
  | nil =>
    obtain rfl : hi = lo := h
    exact ⟨hp, rfl⟩
  | cons q ps ih => exact ⟨h.1, ih h.2⟩

theorem Tiles.eq_sum (h : Tiles lo ps hi) : hi = lo + (ps.map Piece.len).sum := by
  induction ps generalizing lo with
  | nil => exact h
  | cons q ps ih =>
    rw [ih h.2, List.map_cons, List.sum_cons, Nat.add_assoc]

theorem Tiles.mem (h : Tiles lo ps hi) (hp : p ∈ ps) : lo ≤ p.off ∧ p.off + p.len ≤ hi := by
  induction ps generalizing lo with
  | nil => exact absurd hp List.not_mem_nil
  | cons q ps ih =>
    have hsum := h.2.eq_sum
    have hoff := h.1
    rcases List.mem_cons.1 hp with rfl | hp
    · omega
    · have := ih h.2 hp
      omega

/-- The pieces of a tiling are pairwise disjoint. -/
theorem Tiles.pairwise (h : Tiles lo ps hi) :
    ps.Pairwise fun p q => p.off + p.len ≤ q.off := by
  induction ps generalizing lo with
  | nil => exact List.Pairwise.nil
  | cons q ps ih =>
    refine List.Pairwise.cons (fun p hp => ?_) (ih h.2)
    have := (h.2.mem hp).1
    rw [h.1]
    exact this

theorem Chunks.snoc (h : Chunks src n i ps j) (hfrom : p.from? = some (src, j))
    (hlen : p.len = min (n - j).toNat Sysfile.maxWrite) : Chunks src n i (ps ++ [p]) (j + p.len) := by
  induction ps generalizing i with
  | nil =>
    obtain rfl : j = i := h
    exact ⟨hfrom, hlen, rfl⟩
  | cons q ps ih => exact ⟨h.1, h.2.1, ih h.2.2⟩

theorem Chunks.len_le (h : Chunks src n i ps j) (hp : p ∈ ps) : p.len ≤ Sysfile.maxWrite := by
  induction ps generalizing i with
  | nil => exact absurd hp List.not_mem_nil
  | cons q ps ih =>
    rcases List.mem_cons.1 hp with rfl | hp
    · rw [h.2.1]
      exact Nat.min_le_right ..
    · exact ih h.2.2 hp

end

/-! ## Reading and writing under the lock -/

section
variable {E : Panic → Prop} {fs fs' : Fs} {ip : InodeId} {i off : Nat}

/-- What is done under the lock of an inode that nobody holds. -/
theorem Ready.wp_guarded {α : Type} {m : FsM α} {Q : α → Fs → Prop} (h : Ready fs ip i)
    (hm : wp (ideal m) E (fun r fs' => Core fs' ip i ∧ (fs'.inode ip).locked = true ∧
      Q r (fs'.setLocked ip false)) (fs.setLocked ip true)) :
    wp (ideal (SharedFile.guarded ip m)) E Q fs := by
  have href : ¬ (fs.inode ip).ref < 1 := by
    have := h.core.ref
    omega
  rw [SharedFile.guarded, wp_ideal_bind, ilock]
  simp only [wp_ideal_bind, wp_inode, if_neg href, acquire, h.free, Bool.false_eq_true, if_false,
    wp_updateInode]
  have hvalid : ((fs.setLocked ip true).inode ip).valid = true := (h.core.setLocked true).valid
  rw [Fs.setLocked] at hvalid hm
  simp only [hvalid, if_true, wp_ideal_pure]
  refine wp_imp hm ?_
  rintro r fs' ⟨hcore, hlocked, hQ⟩
  have hok : ¬ ((!(fs'.inode ip).locked) = true ∨ (fs'.inode ip).ref < 1) := by
    have := hcore.ref
    rw [hlocked]
    rintro (h' | h')
    · cases h'
    · omega
  simp only [iunlock, wp_ideal_bind, wp_inode, if_neg hok, wp_updateInode]
  exact hQ

theorem Ready.locked (h : Ready fs ip i) : (fs.setLocked ip true).Sane ∧
    Core (fs.setLocked ip true) ip i ∧ ((fs.setLocked ip true).dinode i).type ≠ 0 :=
  ⟨h.sane.setLocked true, h.core.setLocked true, h.typed⟩

/-- **`readi` under the lock** changes nothing and returns at most what is there. -/
theorem Ready.wp_read {dst : Nat → List UInt8 → Bool} {n : Nat} (h : Ready fs ip i) :
    wp (ideal (SharedFile.guarded ip (readi ip dst off n))) E (fun r fs' => fs' = fs ∧
      (r.1 ≤ 0 ∨ off + r.1.toNat ≤ (fs.dinode i).size)) fs := by
  obtain ⟨hsane, hcore, ht⟩ := h.locked
  refine h.wp_guarded (wp_imp (wp_readi (hsane.consistent.weaken _) hsane.noHoles hcore ht) ?_)
  rintro r fs' ⟨rfl, hr⟩
  refine ⟨hcore, by rw [Fs.setLocked_inode_self], Fs.setLocked_twice h.free, ?_⟩
  rcases hr with ⟨-, rfl⟩ | ⟨hoff, rfl | ⟨hneg, -⟩⟩
  · exact .inl le_rfl
  · refine .inr ?_
    replace hoff : off ≤ (fs.dinode i).size := hoff
    show off + ((min n ((fs.dinode i).size - off) : Nat) : Int).toNat ≤ (fs.dinode i).size
    rw [Int.toNat_natCast]
    omega
  · rw [hneg]
    exact .inl (by decide)

/-- **`writei` under the lock** writes as many bytes of the source as it reports, and none before
them. -/
theorem Ready.wp_write (hE : LogStops E) {src : Source} {n : Nat} (h : Ready fs ip i) :
    wp (ideal (SharedFile.guarded ip (writei ip src.copy off n))) E (fun r fs' => Ready fs' ip i ∧
      (fs.dinode i).size ≤ (fs'.dinode i).size ∧
      (∀ o < off, fs'.fileByte fs'.dinode i o = fs.fileByte fs.dinode i o) ∧
      (∀ k < r.toNat, fs'.fileByte fs'.dinode i (off + k) = src.bytes k) ∧
      (r ≤ 0 ∨ off + r.toNat ≤ (fs'.dinode i).size)) fs := by
  obtain ⟨hsane, hcore, ht⟩ := h.locked
  refine h.wp_guarded (wp_imp (wp_writei hE hsane.consistent hsane.noHoles hcore ht) ?_)
  rintro r fs' (⟨rfl, rfl, -⟩ | ⟨tot, x, D', rfl, hw⟩)
  · refine ⟨hcore, by rw [Fs.setLocked_inode_self], ?_⟩
    rw [Fs.setLocked_twice h.free]
    exact ⟨h, le_rfl, fun _ _ => rfl, fun k hk => absurd hk (Nat.not_lt_zero k), .inl (by decide)⟩
  · have hwrote := hw.wrote
    have hcore' := hwrote.core hcore
    have hsane' := hwrote.consistent.sane hw.noHoles
    have hself := hwrote.self
    have hi' : fs'.sb.IsInum i := hcore'.isInum hsane'.consistent
    have hdin : fs'.dinode i = D' i := hwrote.consistent.disk hi' nofun
    have hsize : (D' i).size = max (fs.dinode i).size (off + tot) := by
      obtain ⟨a, ha⟩ := hwrote.fields
      rw [ha]
      rfl
    have hbyte : ∀ o, fs'.fileByte fs'.dinode i o = if i = i ∧ off ≤ o ∧ o < off + (tot + x) then
        src.bytes (o - off) else fs.fileByte fs.dinode i o := fun o => by
      rw [hwrote.consistent.fileByte_dinode]
      exact hwrote.bytes i o
    refine ⟨hcore', by rw [hself, Fs.setLocked_inode_self], ⟨hsane'.setLocked false,
      hcore'.setLocked false, ?_, by rw [Fs.setLocked_inode_self]⟩, ?_, ?_, ?_, ?_⟩
    · show (fs'.dinode i).type ≠ 0
      rw [hdin, hwrote.type_eq]
      exact ht
    · show (fs.dinode i).size ≤ (fs'.dinode i).size
      rw [hdin, hsize]
      exact Nat.le_max_left ..
    · intro o ho
      refine (hbyte o).trans ?_
      rw [if_neg (by omega)]
    · intro k hk
      rw [Int.toNat_natCast] at hk
      refine (hbyte (off + k)).trans ?_
      rw [if_pos ⟨rfl, by omega, by omega⟩, Nat.add_sub_cancel_left]
    · refine .inr ?_
      show off + (tot : Int).toNat ≤ (fs'.dinode i).size
      rw [Int.toNat_natCast, hdin, hsize]
      exact Nat.le_max_right ..

end

/-! ## The invariant -/

/-- The chunks of a call follow each other in its source, and were written in this order. -/
def WriteCall.Good (c : WriteCall) (taken : List Piece) : Prop :=
  Chunks c.src c.n 0 c.chunks c.i ∧ c.chunks.Sublist taken

/-- The bytes of a chunk are in the file, except where they were overwritten from elsewhere. -/
def Piece.Stored (fs : Fs) (i : Nat) (foreign : Nat → Prop) (p : Piece) : Prop :=
  ∀ src b, p.from? = some (src, b) → ∀ k < p.len,
    fs.fileByte fs.dinode i (p.off + k) = src.bytes (b + k) ∨ foreign (p.off + k)

/-- What holds in every state that can be reached from `s₀`. -/
structure SharedFile.Tiled {ι : Type} (s : SharedFile ι) (ip : InodeId) (i : Nat)
    (s₀ : SharedFile ι) : Prop where
  ready : Ready s.fs ip i
  tiles : Tiles s₀.off s.taken s.off
  stored : ∀ p ∈ s.taken, p.Stored s.fs i s.foreign
  calls : ∀ q c, s.calls q = some c → c.Good s.taken
  returned : ∀ c ∈ s.returned, c.Good s.taken

section
variable {ι : Type} [DecidableEq ι] {ip : InodeId} {i : Nat} {s₀ s s' : SharedFile ι}

theorem WriteCall.Good.snoc {c : WriteCall} {taken : List Piece} (h : c.Good taken) (p : Piece) :
    c.Good (taken ++ [p]) := ⟨h.1, h.2.trans (List.sublist_append_left taken [p])⟩

/-- Moving the offset by a result does not overflow. -/
theorem SharedFile.advance_eq {fs : Fs} {off : Nat} {r : Int} {p : Piece} (hp : p.res = r)
    (hr : r ≤ 0 ∨ off + r.toNat ≤ (fs.dinode i).size) : advance off r = off + p.len := by
  rw [advance, Piece.len, hp]
  split
  · next hpos =>
    have hsize : (fs.dinode i).size < 2 ^ 32 := (Dinode.fits_ofBytes _).size
    rw [Nat.mod_eq_of_lt (by omega)]
  · omega

omit [DecidableEq ι] in
/-- A piece is added to the tiling, and the file changes behind the pieces before it only. -/
theorem SharedFile.Tiled.add {p : Piece} {fs : Fs} (h : s.Tiled ip i s₀) (hready : Ready fs ip i)
    (hoff : p.off = s.off) (hr : p.res ≤ 0 ∨ s.off + p.res.toNat ≤ (fs.dinode i).size)
    (hbefore : ∀ o < s.off, fs.fileByte fs.dinode i o = s.fs.fileByte s.fs.dinode i o)
    (hp : p.Stored fs i s.foreign) {calls : ι → Option WriteCall}
    (hcalls : ∀ q c, calls q = some c → c.Good (s.taken ++ [p])) :
    SharedFile.Tiled
      { s with fs := fs, off := advance s.off p.res, calls := calls, taken := s.taken ++ [p] } ip i s₀ where
  ready := hready
  tiles := by
    show Tiles s₀.off (s.taken ++ [p]) (advance s.off p.res)
    rw [advance_eq rfl hr]
    exact h.tiles.snoc hoff
  stored q hq src b hfrom k hk := by
    rcases List.mem_append.1 hq with hq | hq
    · have hend := (h.tiles.mem hq).2
      refine (h.stored q hq src b hfrom k hk).imp_left fun hbyte => ?_
      exact (hbefore _ (by omega)).trans hbyte
    · rw [List.mem_singleton.1 hq] at hfrom hk ⊢
      exact hp src b hfrom k hk
  calls := hcalls
  returned c hc := (h.returned c hc).snoc p

/-- **A step** keeps the tiling. -/
theorem SharedFile.Tiled.step {a : ShareAct ι} (h : s.Tiled ip i s₀) (ha : s.step ip a = some (.ok s')) :
    s'.Tiled ip i s₀ := by
  cases a with
  | read p n dst =>
    rw [SharedFile.step] at ha
    split at ha
    · cases ha
    split at ha
    · cases ha
    · next r bytes fs hrun =>
      obtain ⟨rfl, hr⟩ := wp_ok (h.ready.wp_read (E := fun _ => True)) hrun
      cases ha
      exact h.add (p := ⟨none, s.off, r⟩) h.ready rfl hr (fun _ _ => rfl) nofun
        fun q c hc => (h.calls q c hc).snoc _
  | write p n src =>
    rw [SharedFile.step] at ha
    split at ha
    · cases ha
    · cases ha
      refine { h with calls := fun q c hc => ?_ }
      simp only [Function.update_apply] at hc
      split at hc
      · cases hc
        exact ⟨rfl, List.nil_sublist _⟩
      · exact h.calls q c hc
  | round p =>
    rw [SharedFile.step] at ha
    split at ha
    · cases ha
    next c hc =>
    split at ha
    · split at ha
      · cases ha
      · next r fs hrun =>
        obtain ⟨hready, -, hbefore, hbytes, hr⟩ :=
          wp_ok (h.ready.wp_write (E := fun _ => True) ⟨trivial, trivial⟩) hrun
        cases ha
        refine h.add (p := ⟨some (c.src, c.i), s.off, r⟩) hready rfl hr hbefore ?_ fun q d hd => ?_
        · rintro src b ⟨⟩ k hk
          exact .inl (hbytes k hk)
        · simp only [Function.update_apply] at hd
          split at hd
          · cases hd
            obtain ⟨hchunks, hsub⟩ := h.calls p c hc
            split
            · exact ⟨hchunks, hsub.trans (List.sublist_append_left ..)⟩
            · next hres =>
              have hlen : Piece.len ⟨some (c.src, c.i), s.off, r⟩ = c.n1 := by
                rw [Piece.len, not_ne_iff.1 hres, Int.toNat_natCast]
              refine ⟨?_, hsub.append (List.Sublist.refl _)⟩
              have hnext := hchunks.snoc (p := ⟨some (c.src, c.i), s.off, r⟩) rfl hlen
              rwa [hlen] at hnext
          · exact (h.calls q d hd).snoc _
    · cases ha
  | ret p =>
    rw [SharedFile.step] at ha
    split at ha
    · cases ha
    next c hc =>
    split at ha
    · cases ha
    · cases ha
      refine { h with calls := fun q d hd => ?_, returned := fun d hd => ?_ }
      · simp only [Function.update_apply] at hd
        split at hd
        · cases hd
        · exact h.calls q d hd
      · rcases List.mem_append.1 hd with hd | hd
        · exact h.returned d hd
        · rw [List.mem_singleton.1 hd]
          exact h.calls p c hc

omit [DecidableEq ι] in
/-- What goes on elsewhere keeps the tiling. -/
theorem SharedFile.Tiled.other {fs : Fs} (h : s.Tiled ip i s₀) (hfs : Untruncated ip i s.fs fs) :
    SharedFile.Tiled { s with
      fs := fs
      foreign := fun o => s.foreign o ∨
        fs.fileByte fs.dinode i o ≠ s.fs.fileByte s.fs.dinode i o } ip i s₀ :=
  { h with
    ready := hfs.ready
    stored := fun p hp src b hfrom k hk => by
      by_cases hsame : fs.fileByte fs.dinode i (p.off + k) = s.fs.fileByte s.fs.dinode i (p.off + k)
      · exact (h.stored p hp src b hfrom k hk).imp hsame.trans .inl
      · exact .inr (.inr hsame) }

/-- **Every reachable state** is tiled. -/
theorem SharedFile.Reached.tiled (h : SharedFile.Reached ip i s₀ s) (h₀ : s₀.Tiled ip i s₀) :
    s.Tiled ip i s₀ := by
  induction h with
  | refl => exact h₀
  | step _ ha ih => exact ih.step ha
  | other _ hfs ih => exact ih.other hfs

/-- An open file before anything was done through it. -/
structure SharedFile.Opened (s : SharedFile ι) (ip : InodeId) (i : Nat) : Prop where
  ready : Ready s.fs ip i
  calls : ∀ p, s.calls p = none
  taken : s.taken = []
  returned : s.returned = []
  foreign : ∀ o, ¬ s.foreign o

omit [DecidableEq ι] in
theorem SharedFile.Opened.tiled (h : s.Opened ip i) : s.Tiled ip i s where
  ready := h.ready
  tiles := by
    rw [h.taken]
    rfl
  stored p hp := by
    rw [h.taken] at hp
    exact absurd hp List.not_mem_nil
  calls q c hc := by
    rw [h.calls q] at hc
    cases hc
  returned c hc := by
    rw [h.returned] at hc
    exact absurd hc List.not_mem_nil

/-- **Writes through a shared file neither overlap nor leave gaps.**  In every state that can be
reached, the steps taken tile the interval from the first to the present offset in the order in which
they were taken, so that their ranges are pairwise disjoint and the offset is the first one plus the
results that were positive; the bytes of every chunk are in the file unless something else has
overwritten them; and the chunks of a write that returned `n` are its `n` bytes in order, each at most
`maxWrite` of them and written in one step. -/
theorem shared_offset (ip : InodeId) (i : Nat) (s₀ s : SharedFile ι) (h₀ : s₀.Opened ip i)
    (h : SharedFile.Reached ip i s₀ s) :
    Tiles s₀.off s.taken s.off ∧
    (s.taken.Pairwise fun p q => p.off + p.len ≤ q.off) ∧
    s.off = s₀.off + (s.taken.map Piece.len).sum ∧
    (∀ p ∈ s.taken, p.Stored s.fs i s.foreign) ∧
    ∀ c ∈ s.returned, 0 ≤ c.n → c.ret = c.n →
      Chunks c.src c.n 0 c.chunks c.n.toNat ∧ c.chunks.Sublist s.taken ∧
        ∀ p ∈ c.chunks, p.len ≤ Sysfile.maxWrite := by
  have ht := h.tiled h₀.tiled
  refine ⟨ht.tiles, ht.tiles.pairwise, ht.tiles.eq_sum, ht.stored, fun c hc hn hret => ?_⟩
  obtain ⟨hchunks, hsub⟩ := ht.returned c hc
  refine ⟨?_, hsub, fun p hp => hchunks.len_le hp⟩
  have hi : (c.i : Int) = c.n := by
    rw [WriteCall.ret] at hret
    split at hret
    · assumption
    · omega
  have hn' : c.n.toNat = c.i := by omega
  rw [hn']
  exact hchunks

end

/-! ## Two processes -/

/-- The small file, opened at its beginning and shared by two processes. -/
def smallShared : SharedFile Bool where
  fs := smallFs.setLocked smallIp false
  off := 0
  calls := fun _ => none
  taken := []
  returned := []
  foreign := fun _ => False

theorem smallShared_opened : smallShared.Opened smallIp 1 where
  ready := ⟨smallFs_sane.setLocked false, smallFs_core.setLocked false,
    by show (smallFs.dinode 1).type ≠ 0; rw [smallFs_dinode]; decide, rfl⟩
  calls _ := rfl
  taken := rfl
  returned := rfl
  foreign _ := id

/-- As many bytes as one likes. -/
def longSource : Source where
  bytes k := if k % 2 = 0 then 7 else 9
  moves _ m := m
  moves_le _ _ := le_rfl

/-- One process writes one byte more than fits in a chunk, and another one writes two bytes between its
two rounds. -/
def shareActs : List (ShareAct Bool) :=
  [.write false 3073 longSource, .round false, .write true 2 (Source.kernel [4, 5]), .round true,
    .round false, .ret false, .ret true]

/-- Where the pieces are in the end, and what the calls have returned. -/
def sharesOffset : Bool :=
  match Machine.exec (SharedFile.step smallIp) shareActs smallShared with
  | some (.ok s) => decide (s.off = 3075 ∧
      s.taken.map (fun p => (p.off, p.len)) = [(0, 3072), (3072, 2), (3074, 1)] ∧
      s.returned.map (fun c => (c.n, c.ret, c.chunks.map Piece.off)) =
        [(3073, 3073, [0, 3074]), (2, 2, [3072])])
  | _ => false

set_option maxRecDepth 8000 in
theorem sharesOffset_eq : sharesOffset = true := by decide +kernel

/-- The steps of the processes alone. -/
theorem SharedFile.reached_of_run {ι : Type} [DecidableEq ι] {ip : InodeId} {i : Nat}
    {s₀ s : SharedFile ι} {as : List (ShareAct ι)}
    (h : Machine.Run (SharedFile.step ip) s₀ as s) : SharedFile.Reached ip i s₀ s := by
  induction h with
  | nil => exact .refl
  | snoc _ ha ih => exact ih.step ha

/-- The writes of the two processes interleave: the chunks of the long one are in order, with the other
one's between them. -/
theorem shared_offset_two : ∃ s c, SharedFile.Reached smallIp 1 smallShared s ∧ s.off = 3075 ∧
    s.taken.map (fun p => (p.off, p.len)) = [(0, 3072), (3072, 2), (3074, 1)] ∧ c ∈ s.returned ∧
    c.ret = 3073 ∧ c.chunks.map Piece.off = [0, 3074] ∧ Chunks c.src 3073 0 c.chunks 3073 ∧
    c.chunks.Sublist s.taken := by
  have hshares := sharesOffset_eq
  unfold sharesOffset at hshares
  split at hshares
  · next s hexec =>
    obtain ⟨hoff, htaken, hreturned⟩ := of_decide_eq_true hshares
    have hreach : SharedFile.Reached smallIp 1 smallShared s :=
      SharedFile.reached_of_run (Machine.run_of_exec hexec)
    cases hret : s.returned with
    | nil =>
      rw [hret] at hreturned
      cases hreturned
    | cons c cs =>
      rw [hret, List.map_cons, List.cons.injEq, Prod.mk.injEq, Prod.mk.injEq] at hreturned
      obtain ⟨⟨hn, hc, hchunks⟩, -⟩ := hreturned
      have hmem : c ∈ s.returned := hret ▸ List.mem_cons_self
      have hmain := (shared_offset smallIp 1 smallShared s smallShared_opened hreach).2.2.2.2 c hmem
        (by rw [hn]; decide) (hc.trans hn.symm)
      rw [hn] at hmain
      exact ⟨s, c, hreach, hoff, htaken, hmem, hc, hchunks, hmain.1, hmain.2.1⟩
  · exact absurd hshares Bool.false_ne_true

end Xv6pp
