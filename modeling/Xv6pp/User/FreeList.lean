import Mathlib.Tactic.Tauto
import Xv6pp.Lib.Spans
import Xv6pp.User.Umalloc

/-!
# The free list

The blocks of the free list, and those that the program holds, as spans.  `Inv` says that the list is a
circle through `base`, in the order of addresses, that no two blocks touch, and that every byte obtained
from `sbrk` is in one block, free or held.

`free`, the removal of a block from the list and the acquisition of memory keep the invariant; `malloc`
is made of them.
-/

set_option autoImplicit false

namespace Xv6pp

namespace Umalloc

open Spans

/-! ## Memory -/

section
variable {mem : Nat → Header} {p q n a : Nat}

theorem setPtr_of_ne (h : a ≠ p) : setPtr mem p q a = mem a := Function.update_of_ne h _ _

theorem setSize_of_ne (h : a ≠ p) : setSize mem p n a = mem a := Function.update_of_ne h _ _

theorem setPtr_self : setPtr mem p q p = ⟨q, (mem p).size⟩ := Function.update_self ..

theorem setSize_self : setSize mem p n p = ⟨(mem p).ptr, n⟩ := Function.update_self ..

theorem glue_of_ne (h : a ≠ p) : glue mem p q a = mem a := by
  rw [glue]
  split
  · rw [setPtr_of_ne h, setSize_of_ne h]
  · exact setPtr_of_ne h

end

/-! ## Linked blocks -/

/-- From `q` on the blocks are linked, up to `e`, and every header has the size of its block. -/
def Links (mem : Nat → Header) (q : Nat) (nodes : List Span) (e : Nat) : Prop :=
  Chain (fun a => (mem a).ptr) q (nodes.map Span.lo) e ∧
    ∀ b ∈ nodes, b.hi = b.lo + 16 * (mem b.lo).size

section
variable {mem mem' : Nat → Header} {q e : Nat} {b : Span} {l l' : List Span}

theorem links_cons : Links mem q (b :: l) e ↔
    q = b.lo ∧ b.hi = b.lo + 16 * (mem b.lo).size ∧ Links mem (mem b.lo).ptr l e := by
  rw [Links, Links, List.map_cons, Chain, List.forall_mem_cons]
  constructor
  · rintro ⟨⟨hq, hchain⟩, hb, hl⟩
    exact ⟨hq, hb, hchain, hl⟩
  · rintro ⟨hq, hb, hchain, hl⟩
    exact ⟨⟨hq, hchain⟩, hb, hl⟩

theorem links_append : Links mem q (l ++ l') e ↔ ∃ r, Links mem q l r ∧ Links mem r l' e := by
  simp only [Links, List.map_append, chain_append, List.forall_mem_append]
  constructor
  · rintro ⟨⟨r, h, h'⟩, hl, hl'⟩
    exact ⟨r, ⟨h, hl⟩, h', hl'⟩
  · rintro ⟨r, ⟨h, hl⟩, h', hl'⟩
    exact ⟨⟨r, h, h'⟩, hl, hl'⟩

theorem Links.congr (h : Links mem q l e) (hmem : ∀ b ∈ l, mem' b.lo = mem b.lo) :
    Links mem' q l e := by
  refine ⟨h.1.congr ?_, ?_⟩
  · intro x hx
    obtain ⟨b, hb, rfl⟩ := List.mem_map.1 hx
    exact congrArg Header.ptr (hmem b hb)
  · intro b hb
    rw [hmem b hb]
    exact h.2 b hb

/-- **`glue`** puts a block in front of linked blocks and makes one of it and the first if they touch. -/
theorem links_glue {a : Span} (h : Links mem q l e) (ha : a.hi = a.lo + 16 * (mem a.lo).size)
    (hnot : ∀ b ∈ l, b.lo ≠ a.lo) (hlast : l = [] → a.hi ≠ e)
    (hsmall : ∀ s ∈ join a l, s.hi - s.lo < 2 ^ 36) :
    Links (glue mem a.lo q) a.lo (join a l) e := by
  cases l with
  | nil =>
    obtain rfl : q = e := h.1
    have hglue : glue mem a.lo q = setPtr mem a.lo q := by
      rw [glue, if_neg]
      rw [← ha]
      exact hlast rfl
    rw [hglue]
    refine links_cons.2 ⟨rfl, ?_, ?_⟩
    · rw [setPtr_self]
      exact ha
    · rw [setPtr_self]
      exact ⟨rfl, List.forall_mem_nil _⟩
  | cons b l =>
    obtain ⟨rfl, hb, hl⟩ := links_cons.1 h
    have hne := hnot b (List.mem_cons_self ..)
    rw [join] at hsmall ⊢
    split at hsmall
    · next htouch =>
      rw [if_pos htouch]
      have hsize := hsmall _ (List.mem_cons_self ..)
      have hself : glue mem a.lo b.lo a.lo = ⟨(mem b.lo).ptr, (mem a.lo).size + (mem b.lo).size⟩ := by
        rw [glue, if_pos (ha.symm.trans htouch)]
        rw [setPtr_self, setSize_self, setSize_of_ne hne, Nat.mod_eq_of_lt]
        show (mem a.lo).size + (mem b.lo).size < 2 ^ 32
        replace hsize : b.hi - a.lo < 2 ^ 36 := hsize
        omega
      refine links_cons.2 ⟨rfl, ?_, ?_⟩
      · rw [hself]
        show b.hi = a.lo + 16 * ((mem a.lo).size + (mem b.lo).size)
        omega
      · rw [hself]
        exact hl.congr fun c hc => glue_of_ne (hnot c (List.mem_cons_of_mem _ hc))
    · next htouch =>
      rw [if_neg htouch]
      have hglue : glue mem a.lo b.lo = setPtr mem a.lo b.lo := by
        rw [glue, if_neg]
        rw [← ha]
        exact htouch
      rw [hglue]
      refine links_cons.2 ⟨rfl, ?_, ?_⟩
      · rw [setPtr_self]
        exact ha
      · rw [setPtr_self]
        exact h.congr fun c hc => setPtr_of_ne (hnot c hc)

end

/-! ## The loop of `free` -/

section
variable {mem : Nat → Header} {bp q e : Nat} {xs : List Nat}

/-- More rounds than the loop needs change nothing. -/
theorem search_mono {fuel p : Nat} (h : search mem bp fuel q = some p) (k : Nat) :
    search mem bp (fuel + k) q = some p := by
  induction fuel generalizing q with
  | zero => cases h
  | succ fuel ih =>
    rw [search] at h
    rw [Nat.add_right_comm, search]
    split at h
    · next hq => rwa [if_pos hq]
    · next hq =>
      rw [if_neg hq]
      exact ih h

theorem search_chain (h : Chain (fun a => (mem a).ptr) q xs e) (hstop : ∃ x ∈ xs, Stops mem bp x) {fuel : Nat}
    (hfuel : xs.length ≤ fuel) : ∃ x ∈ xs, search mem bp fuel q = some x ∧ Stops mem bp x := by
  induction xs generalizing q fuel with
  | nil =>
    obtain ⟨x, hx, -⟩ := hstop
    cases hx
  | cons x xs ih =>
    obtain ⟨rfl, h⟩ := h
    obtain ⟨fuel, rfl⟩ := Nat.exists_eq_add_of_le' (Nat.le_trans (Nat.le_add_left 1 _) hfuel)
    rw [search]
    split
    · next hq => exact ⟨q, List.mem_cons_self .., rfl, hq⟩
    · next hq =>
      have hstop' : ∃ x ∈ xs, Stops mem bp x := by
        obtain ⟨x, hx, hstop⟩ := hstop
        obtain rfl | hx := List.mem_cons.1 hx
        · exact absurd hstop hq
        · exact ⟨x, hx, hstop⟩
      obtain ⟨x, hx, hsearch, hstop⟩ := ih h hstop' (Nat.le_of_succ_le_succ hfuel)
      exact ⟨x, List.mem_cons_of_mem _ hx, hsearch, hstop⟩

/-- A linked circle may be walked from any of its blocks: it is passed through and the walk ends where it
began. -/
theorem links_from {nodes : List Span} {p : Nat} (h : Links mem q nodes q) (hp : p ∈ nodes.map Span.lo) :
    ∃ xs, Chain (fun a => (mem a).ptr) (mem p).ptr (xs ++ [p]) (mem p).ptr ∧
      xs.length + 1 = nodes.length ∧ (∀ x, x ∈ xs ++ [p] ↔ x ∈ nodes.map Span.lo) ∧
      ((nodes.map Span.lo).Nodup → p ∉ xs) := by
  obtain ⟨before, after, hsplit⟩ := List.append_of_mem hp
  have hchain := h.1
  rw [hsplit] at hchain
  obtain ⟨r, hbefore, hr, hafter⟩ := chain_append.1 hchain
  rw [hr] at hbefore
  have haround := chain_append.2 ⟨q, hafter, hbefore⟩
  refine ⟨after ++ before, chain_append.2 ⟨p, haround, rfl, rfl⟩, ?_, fun x => ?_, fun hnodup hmem => ?_⟩
  · have hlength := congrArg List.length hsplit
    rw [List.length_map, List.length_append, List.length_cons] at hlength
    rw [hlength, List.length_append]
    omega
  · rw [hsplit]
    simp only [List.mem_append, List.mem_cons, List.not_mem_nil, or_false]
    tauto
  · rw [hsplit] at hnodup
    obtain ⟨-, hafter, hcross⟩ := List.nodup_append.1 hnodup
    obtain hmem | hmem := List.mem_append.1 hmem
    · exact (List.nodup_cons.1 hafter).1 hmem
    · exact hcross p hmem p (List.mem_cons_self ..) rfl

end

/-! ## The invariant -/

/-- The memory obtained from `sbrk`. -/
def Got (log : List (Int × Option Nat)) (x : Nat) : Prop :=
  ∃ k a, (k, some a) ∈ log ∧ a ≤ x ∧ (x : Int) < a + k

/-- What is required of every block: it is aligned, is above `base`, and has a header. -/
def Proper (base : Nat) (s : Span) : Prop := 16 ∣ s.lo ∧ base + 16 ≤ s.lo ∧ s.lo < s.hi

/-- `base` as a block: it has no memory. -/
def baseSpan (base : Nat) : Span := ⟨base, base⟩

/-- The free blocks are `blocks`, and the program holds the blocks of `live`. -/
structure Inv (base : Nat) (h : Heap) (live blocks : List Span) : Prop where
  /-- The list is a circle through `base` and the free blocks. -/
  links : Links h.mem base (baseSpan base :: blocks) base
  freep : h.freep ∈ (baseSpan base :: blocks).map Span.lo
  /-- The list is in the order of addresses, and no two blocks touch. -/
  separated : Separated blocks
  proper : ∀ b ∈ blocks, Proper base b
  liveProper : ∀ l ∈ live, Proper base l ∧ l.hi = l.lo + 16 * (h.mem l.lo).size
  liveDisjoint : live.Pairwise Span.Disjoint
  disjoint : ∀ b ∈ blocks, ∀ l ∈ live, b.Disjoint l
  /-- Every byte obtained is in a block. -/
  cover : ∀ x, Got h.log x ↔ Covers blocks x ∨ Covers live x

section
variable {base : Nat} {h : Heap} {live blocks : List Span}

theorem Inv.separatedNodes (hinv : Inv base h live blocks) : Separated (baseSpan base :: blocks) := by
  refine List.pairwise_cons.2 ⟨fun b hb => ?_, hinv.separated⟩
  have := (hinv.proper b hb).2.1
  show base < b.lo
  omega

theorem Inv.bounds (hinv : Inv base h live blocks) {b : Span} (hb : b ∈ baseSpan base :: blocks) :
    base ≤ b.lo ∧ b.lo ≤ b.hi := by
  obtain rfl | hb := List.mem_cons.1 hb
  · exact ⟨Nat.le_refl _, Nat.le_refl _⟩
  · have := hinv.proper b hb
    exact ⟨Nat.le_trans (Nat.le_add_right ..) this.2.1, Nat.le_of_lt this.2.2⟩

/-- The blocks that the list is made of, below and above an address. -/
theorem exists_below {bp : Nat} {a : Span} {l : List Span} (ha : a.lo < bp) (hne : ∀ b ∈ l, b.lo ≠ bp) :
    ∃ before x after, a :: l = before ++ x :: after ∧ x.lo < bp ∧ ∀ y ∈ after.head?, bp < y.lo := by
  induction l generalizing a with
  | nil => exact ⟨[], a, [], rfl, ha, fun y hy => nomatch hy⟩
  | cons b l ih =>
    have hb := hne b (List.mem_cons_self ..)
    by_cases hlt : bp < b.lo
    · refine ⟨[], a, b :: l, rfl, ha, fun y hy => ?_⟩
      obtain rfl : b = y := Option.some.inj hy
      exact hlt
    · obtain ⟨before, x, after, hsplit, hx, hafter⟩ :=
        ih (a := b) (by omega) fun c hc => hne c (List.mem_cons_of_mem _ hc)
      refine ⟨a :: before, x, after, ?_, hx, hafter⟩
      rw [hsplit]
      rfl

/-- The loop of `free` stops just at the last block below the one that is freed. -/
theorem Inv.stops_iff (hinv : Inv base h live blocks) {bp : Nat} (hbp : base < bp)
    {before after : List Span} {x : Span} (hsplit : baseSpan base :: blocks = before ++ x :: after) :
    Stops h.mem bp x.lo ↔ x.lo < bp ∧ ∀ y ∈ after.head?, bp < y.lo := by
  have hlinks := hinv.links
  have hbase := (hinv.bounds (b := x) (hsplit ▸ List.mem_append_right _ (List.mem_cons_self ..))).1
  have hsep := hinv.separatedNodes
  rw [hsplit] at hlinks hsep
  obtain ⟨r, -, hx⟩ := links_append.1 hlinks
  obtain ⟨rfl, hhi, hafter⟩ := links_cons.1 hx
  have hlt := (List.pairwise_cons.1 (List.pairwise_append.1 hsep).2.1).1
  rw [Stops]
  cases after with
  | nil =>
    have hptr : (h.mem x.lo).ptr = base := hafter.1
    rw [hptr]
    constructor
    · intro hstop
      exact ⟨by omega, fun y hy => nomatch hy⟩
    · rintro ⟨hlo, -⟩
      exact .inr ⟨hbase, .inl hlo⟩
  | cons y after =>
    have hptr : (h.mem x.lo).ptr = y.lo := (links_cons.1 hafter).1
    have hxy := hlt y (List.mem_cons_self ..)
    rw [hptr]
    constructor
    · intro hstop
      refine ⟨by omega, fun z hz => ?_⟩
      obtain rfl : y = z := Option.some.inj hz
      omega
    · rintro ⟨hlo, hafter⟩
      exact .inl ⟨hlo, hafter y rfl⟩

/-- The loop of `free` comes to its end, at the place where the block belongs. -/
theorem Inv.search (hinv : Inv base h live blocks) {bp : Nat} (hbp : base < bp)
    (hne : ∀ b ∈ blocks, b.lo ≠ bp) {fuel : Nat} (hfuel : blocks.length + 1 ≤ fuel) :
    ∃ before x after, baseSpan base :: blocks = before ++ x :: after ∧ x.lo < bp ∧
      (∀ y ∈ after.head?, bp < y.lo) ∧ Umalloc.search h.mem bp fuel h.freep = some x.lo := by
  obtain ⟨xs, hchain, hlength, hmem, -⟩ := links_from hinv.links hinv.freep
  obtain ⟨r, hxs, hr, -⟩ := chain_append.1 hchain
  rw [hr] at hxs
  obtain ⟨before, x, after, hsplit, hx, hafter⟩ := exists_below (a := baseSpan base) hbp hne
  have hfreep : ∀ y, y ∈ h.freep :: xs ↔ y ∈ (baseSpan base :: blocks).map Span.lo := by
    intro y
    rw [← hmem, List.mem_append, List.mem_cons, List.mem_singleton, or_comm]
  have hxmem : x.lo ∈ h.freep :: xs := by
    rw [hfreep, hsplit]
    exact List.mem_map_of_mem (List.mem_append_right _ (List.mem_cons_self ..))
  obtain ⟨y, hy, hsearch, hstop⟩ := @search_chain h.mem _ h.freep _ (h.freep :: xs)
    ⟨rfl, hxs⟩ ⟨x.lo, hxmem, (hinv.stops_iff hbp hsplit).2 ⟨hx, hafter⟩⟩ fuel (by
      rw [List.length_cons] at hlength ⊢
      omega)
  obtain ⟨z, hz, rfl⟩ := List.mem_map.1 ((hfreep y).1 hy)
  obtain ⟨before', after', hsplit'⟩ := List.append_of_mem hz
  obtain ⟨hlo, hhead⟩ := (hinv.stops_iff hbp hsplit').1 hstop
  exact ⟨before', z, after', hsplit', hlo, hhead, hsearch⟩

end

/-! ## `free` keeps the invariant -/

/-- Nothing free is as long as 2^36 bytes, so that the sizes of blocks that touch can be added. -/
def Roomy (log : List (Int × Option Nat)) (live : List Span) : Prop :=
  ∀ lo hi, (∀ x, lo ≤ x → x < hi → Got log x ∧ ¬ Covers live x) → hi - lo < 2 ^ 36

/-- What the allocator may write to: `base` and what is not held. -/
def Own (base : Nat) (blocks : List Span) (a : Nat) : Prop := a = base ∨ Covers blocks a

section
variable {base : Nat} {h : Heap} {live blocks before after : List Span} {l x : Span}

theorem disjoint_of_forall {s t : Span} (hs : s.lo < s.hi) (ht : t.lo < t.hi)
    (h : ∀ x, s.lo ≤ x ∧ x < s.hi → ¬ (t.lo ≤ x ∧ x < t.hi)) : s.Disjoint t := by
  by_contra hd
  rw [Span.Disjoint, not_or] at hd
  refine h (max s.lo t.lo) ?_ ?_ <;> omega

theorem not_covers {t : Span} (hd : ∀ b ∈ blocks, b.Disjoint t) {a : Nat} (ha : t.lo ≤ a ∧ a < t.hi) :
    ¬ Covers blocks a := by
  rintro ⟨b, hb, hlo, hhi⟩
  obtain hd | hd := hd b hb <;> omega

/-- The block that is freed has its place in the list. -/
theorem Inv.place (hinv : Inv base h (l :: live) blocks)
    (hsplit : baseSpan base :: blocks = before ++ x :: after) (hx : x.lo < l.lo)
    (hafter : ∀ y ∈ after.head?, l.lo < y.lo) : Place before x l after := by
  obtain ⟨⟨-, hbase, hne⟩, -⟩ := hinv.liveProper l (List.mem_cons_self ..)
  have hdisj : ∀ b ∈ blocks, b.Disjoint l := fun b hb => hinv.disjoint b hb l (List.mem_cons_self ..)
  have hsep := hinv.separatedNodes
  have hbounds : ∀ b ∈ before ++ x :: after, base ≤ b.lo ∧ b.lo ≤ b.hi := by
    rw [← hsplit]
    exact fun b => hinv.bounds
  have hnode : ∀ b ∈ before ++ x :: after, b = baseSpan base ∨ b.Disjoint l := by
    rw [← hsplit]
    intro b hb
    obtain rfl | hb := List.mem_cons.1 hb
    · exact .inl rfl
    · exact .inr (hdisj b hb)
  rw [hsplit] at hsep
  have hxmem : x ∈ before ++ x :: after := List.mem_append_right _ (List.mem_cons_self ..)
  refine ⟨hsep, fun b hb => (hbounds b hb).2, Nat.le_of_lt hne, ?_, ?_⟩
  · obtain rfl | hd | hd := hnode x hxmem
    · exact Nat.le_of_lt hx
    · exact hd
    · omega
  · intro b hb
    have hb' : b ∈ before ++ x :: after := List.mem_append_right _ (List.mem_cons_of_mem _ hb)
    have hlow : l.lo < b.lo := by
      cases after with
      | nil => cases hb
      | cons y after =>
        have hy := hafter y rfl
        obtain rfl | hb := List.mem_cons.1 hb
        · exact hy
        · have hyb := (List.pairwise_cons.1 (List.pairwise_cons.1
            (List.pairwise_append.1 hsep).2.1).2).1 b hb
          have := (hbounds y (List.mem_append_right _ (by simp))).2
          omega
    obtain rfl | hd | hd := hnode b hb'
    · have hlow' : l.lo < base := hlow
      omega
    · have := (hbounds b hb').2
      omega
    · exact hd

/-- What is written by `free` links the blocks with the new one among them. -/
theorem Inv.links_insert (hinv : Inv base h (l :: live) blocks)
    (hsplit : baseSpan base :: blocks = before ++ x :: after) (hplace : Place before x l after)
    (hx : x.lo < l.lo)
    (hsmall : ∀ s : Span, (∀ a, s.lo ≤ a → a < s.hi → Covers (l :: blocks) a) → s.hi - s.lo < 2 ^ 36) :
    Links (glue (glue h.mem l.lo (h.mem x.lo).ptr) x.lo l.lo) base (insert before x l after) base := by
  obtain ⟨⟨-, hbase, hne⟩, hsize⟩ := hinv.liveProper l (List.mem_cons_self ..)
  have hlinks := hinv.links
  rw [hsplit] at hlinks
  obtain ⟨r, hbefore, hrest⟩ := links_append.1 hlinks
  obtain ⟨rfl, hxsize, hafter⟩ := links_cons.1 hrest
  obtain ⟨-, hpair, hcross⟩ := List.pairwise_append.1 hplace.separated
  have habove := hplace.above
  have hxx := hplace.bounds x (List.mem_append_right _ (List.mem_cons_self ..))
  have hxafter := (List.pairwise_cons.1 hpair).1
  have hcovers : ∀ a, Covers (join l after) a → Covers (l :: blocks) a := by
    intro a ha
    rw [covers_join hplace.bound hplace.after_bounds] at ha
    refine covers_cons.2 (ha.imp_right fun ha => ?_)
    have hnodes : Covers (baseSpan base :: blocks) a := by
      rw [hsplit, covers_append, covers_cons]
      exact .inr (.inr ha)
    obtain hin | ha := covers_cons.1 hnodes
    · exact absurd hin.1 (Nat.not_le_of_lt hin.2)
    · exact ha
  have hcovers' : ∀ a, Covers (join x (join l after)) a → Covers (l :: blocks) a := by
    intro a ha
    rw [covers_join hxx fun b hb => (hplace.mem_joined hb).2] at ha
    obtain ha | ha := ha
    · have hnodes : Covers (baseSpan base :: blocks) a := by
        rw [hsplit, covers_append, covers_cons]
        exact .inr (.inl ha)
      obtain hin | ha := covers_cons.1 hnodes
      · exact absurd hin.1 (Nat.not_le_of_lt hin.2)
      · exact covers_cons.2 (.inr ha)
    · exact hcovers a ha
  have hfirst : Links (glue h.mem l.lo (h.mem x.lo).ptr) l.lo (join l after) base := by
    refine links_glue hafter hsize ?_ ?_ ?_
    · intro b hb
      have := habove b hb
      omega
    · intro _
      omega
    · exact fun s hs => hsmall s fun a hlo hhi => hcovers a ⟨s, hs, hlo, hhi⟩
  have hsecond : Links (glue (glue h.mem l.lo (h.mem x.lo).ptr) x.lo l.lo) x.lo
      (join x (join l after)) base := by
    refine links_glue hfirst ?_ ?_ ?_ ?_
    · rw [glue_of_ne (Nat.ne_of_lt hx)]
      exact hxsize
    · intro b hb
      have := (hplace.mem_joined hb).1
      omega
    · intro hnil
      obtain ⟨s, rest, hjoin, -⟩ := join_head l after
      rw [hjoin] at hnil
      cases hnil
    · exact fun s hs => hsmall s fun a hlo hhi => hcovers' a ⟨s, hs, hlo, hhi⟩
  refine links_append.2 ⟨x.lo, hbefore.congr fun b hb => ?_, hsecond⟩
  have hbx := hcross b hb x (List.mem_cons_self ..)
  have hbb := hplace.bounds b (List.mem_append_left _ hb)
  rw [glue_of_ne (by omega), glue_of_ne (by omega)]

/-- The list begins with `base` after the insertion too. -/
theorem Inv.insert_eq (hinv : Inv base h (l :: live) blocks)
    (hsplit : baseSpan base :: blocks = before ++ x :: after) :
    ∃ blocks', insert before x l after = baseSpan base :: blocks' := by
  obtain ⟨⟨-, hbase, -⟩, -⟩ := hinv.liveProper l (List.mem_cons_self ..)
  cases before with
  | nil =>
    obtain ⟨rfl, rfl⟩ := List.cons.inj hsplit
    obtain ⟨s, rest, hjoin, hlo⟩ := join_head l blocks
    refine ⟨join l blocks, ?_⟩
    show join (baseSpan base) (join l blocks) = _
    rw [hjoin, join, if_neg]
    show base ≠ s.lo
    omega
  | cons b before =>
    obtain ⟨rfl, -⟩ := List.cons.inj hsplit
    exact ⟨_, rfl⟩

/-- **`free`** returns; the block is in the list then, as one with those that it touches. -/
theorem Inv.free (hinv : Inv base h (l :: live) blocks) (hroom : Roomy h.log live) :
    ∃ h' blocks', (∀ fuel, blocks.length + 1 ≤ fuel → Umalloc.free fuel h (l.lo + 16) = some h') ∧
      Inv base h' live blocks' ∧ h'.log = h.log ∧
      ∀ a, ¬ Own base (l :: blocks) a → h'.mem a = h.mem a := by
  obtain ⟨⟨halign, hbase, hne⟩, hsize⟩ := hinv.liveProper l (List.mem_cons_self ..)
  have hdisj : ∀ b ∈ blocks, b.Disjoint l := fun b hb => hinv.disjoint b hb l (List.mem_cons_self ..)
  have hlive : ∀ t ∈ live, l.Disjoint t := (List.pairwise_cons.1 hinv.liveDisjoint).1
  have hother : ∀ {t a}, t ∈ live → t.lo ≤ a → a < t.hi → ¬ Covers (l :: blocks) a := by
    intro t a ht hlo hhi
    exact not_covers (List.forall_mem_cons.2 ⟨hlive t ht,
      fun b hb => hinv.disjoint b hb t (List.mem_cons_of_mem _ ht)⟩) ⟨hlo, hhi⟩
  have hgot : ∀ a, Got h.log a ↔ Covers (l :: blocks) a ∨ Covers live a := by
    intro a
    rw [hinv.cover, covers_cons, covers_cons]
    tauto
  have hsmall : ∀ s : Span, (∀ a, s.lo ≤ a → a < s.hi → Covers (l :: blocks) a) →
      s.hi - s.lo < 2 ^ 36 := by
    intro s hs
    refine hroom s.lo s.hi fun a hlo hhi => ⟨(hgot a).2 (.inl (hs a hlo hhi)), ?_⟩
    rintro ⟨t, ht, hta⟩
    exact hother ht hta.1 hta.2 (hs a hlo hhi)
  obtain ⟨before, x, after, hsplit, hx, hafter, hsearch⟩ := @Inv.search _ _ _ _ hinv l.lo (by omega)
    (fun b hb heq => by
      have := (hinv.proper b hb).2.2
      obtain hd | hd := hdisj b hb <;> omega) _ (Nat.le_refl _)
  have hplace := hinv.place hsplit hx hafter
  obtain ⟨blocks', hblocks⟩ := hinv.insert_eq hsplit
  have hlinks := hinv.links_insert hsplit hplace hx hsmall
  have hsep := hplace.insert_separated
  have hcovers : ∀ a, Covers blocks' a ↔ Covers (l :: blocks) a := by
    intro a
    have hnodes := hplace.covers (x := a)
    rw [hblocks, ← hsplit, covers_cons, covers_cons] at hnodes
    have hnone : ¬ ((baseSpan base).lo ≤ a ∧ a < (baseSpan base).hi) := fun h =>
      Nat.lt_irrefl a (Nat.lt_of_lt_of_le h.2 h.1)
    rw [covers_cons]
    tauto
  rw [hblocks] at hlinks hsep
  have hproper : ∀ s ∈ blocks', Proper base s := by
    intro s hs
    have hbelow := (List.pairwise_cons.1 hsep).1 s hs
    have hnode : ∀ b ∈ before ++ x :: after, b = baseSpan base ∨ Proper base b := by
      rw [← hsplit]
      intro b hb
      exact (List.mem_cons.1 hb).imp_right (hinv.proper b)
    have hs' : s ∈ insert before x l after := hblocks ▸ List.mem_cons_of_mem _ hs
    have hnotBase : s.lo ≠ base := Nat.ne_of_gt hbelow
    have hold : s ∈ before ++ x :: after → Proper base s := by
      intro h
      refine (hnode s h).resolve_left ?_
      rintro rfl
      exact hnotBase rfl
    obtain hs' | hs' | ⟨hlo, hhi⟩ | ⟨hlo, hhi⟩ := hplace.mem_insert hs'
    · exact hold (List.mem_append_left _ hs')
    · exact hold (List.mem_append_right _ (List.mem_cons_of_mem _ hs'))
    · obtain rfl | ⟨hxalign, hxbase, hxne⟩ := hnode x (List.mem_append_right _ (List.mem_cons_self ..))
      · exact absurd hlo hnotBase
      · refine ⟨hlo ▸ hxalign, hlo ▸ hxbase, ?_⟩
        omega
    · exact ⟨hlo ▸ halign, hlo ▸ hbase, by omega⟩
  have hx' : x = baseSpan base ∨ x ∈ blocks :=
    List.mem_cons.1 (hsplit ▸ List.mem_append_right _ (List.mem_cons_self ..))
  have hframe : ∀ a, ¬ Own base (l :: blocks) a →
      glue (glue h.mem l.lo (h.mem x.lo).ptr) x.lo l.lo a = h.mem a := by
    intro a ha
    rw [Own, covers_cons, not_or, not_or] at ha
    have hal : a ≠ l.lo := by
      rintro rfl
      exact ha.2.1 ⟨Nat.le_refl _, hne⟩
    have hax : a ≠ x.lo := by
      rintro rfl
      obtain rfl | hx' := hx'
      · exact ha.1 rfl
      · exact ha.2.2 ⟨x, hx', Nat.le_refl _, (hinv.proper x hx').2.2⟩
    rw [glue_of_ne hax, glue_of_ne hal]
  refine ⟨{ h with mem := glue (glue h.mem l.lo (h.mem x.lo).ptr) x.lo l.lo, freep := x.lo }, blocks', ?_,
    ⟨hlinks, ?_, (List.pairwise_cons.1 hsep).2, hproper, ?_, (List.pairwise_cons.1 hinv.liveDisjoint).2,
      ?_, ?_⟩, rfl, hframe⟩
  · intro fuel hfuel
    obtain ⟨k, rfl⟩ := Nat.exists_eq_add_of_le hfuel
    simp only [Umalloc.free, Nat.add_sub_cancel, search_mono hsearch k]
  · obtain ⟨s, rest, hjoin, hlo⟩ := join_head x (join l after)
    have hs : s ∈ baseSpan base :: blocks' := by
      rw [← hblocks, Spans.insert, hjoin]
      exact List.mem_append_right _ (List.mem_cons_self ..)
    exact hlo ▸ List.mem_map_of_mem hs
  · intro t ht
    obtain ⟨htp, htsize⟩ := hinv.liveProper t (List.mem_cons_of_mem _ ht)
    refine ⟨htp, ?_⟩
    have hown : ¬ Own base (l :: blocks) t.lo := by
      rintro (heq | hc)
      · have := htp.2.1
        omega
      · exact hother ht (Nat.le_refl _) htp.2.2 hc
    show t.hi = t.lo + 16 * (glue (glue h.mem l.lo (h.mem x.lo).ptr) x.lo l.lo t.lo).size
    rw [hframe _ hown]
    exact htsize
  · intro b hb t ht
    have htp := (hinv.liveProper t (List.mem_cons_of_mem _ ht)).1
    refine disjoint_of_forall (hproper b hb).2.2 htp.2.2 fun a ha hta => ?_
    exact hother ht hta.1 hta.2 ((hcovers a).1 ⟨b, hb, ha⟩)
  · intro a
    show Got h.log a ↔ _
    rw [hgot, hcovers]

end

end Umalloc

end Xv6pp
