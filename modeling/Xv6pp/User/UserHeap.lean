import Mathlib.Data.List.Pairwise
import Xv6pp.User.FreeList

/-!
# `malloc` and whole runs

`malloc` walks round the free list, and asks `sbrk` for memory when it has come round.  What it does to
the list is to take a block, or the end of one, out of it.

A run of a program is any sequence of calls of `malloc` and `free` and of writes to what the program
holds.  `heap_run` says what holds after every run whose requests are not so large that `malloc` asks
`sbrk` for the wrong amount.
-/

set_option autoImplicit false

namespace Xv6pp

namespace Umalloc

open Spans

/-! ## Memory from `sbrk` -/

section
variable {base : Nat} {h : Heap} {live blocks : List Span}

/-- What is promised of an answer of `sbrk`: it is a failure, or the beginning of aligned memory above
everything returned before. -/
def Fresh (base : Nat) (log : List (Int × Option Nat)) (answer : Option Nat) : Prop :=
  ∀ a, answer = some a → 16 ∣ a ∧ base + 16 ≤ a ∧ ∀ x, Got log x → x < a

theorem got_append {log : List (Int × Option Nat)} {k : Int} {a x : Nat} :
    Got (log ++ [(k, some a)]) x ↔ Got log x ∨ a ≤ x ∧ (x : Int) < a + k := by
  constructor
  · rintro ⟨k', a', hmem, hx⟩
    obtain hmem | hmem := List.mem_append.1 hmem
    · exact .inl ⟨k', a', hmem, hx⟩
    · obtain ⟨rfl, heq⟩ := Prod.mk.inj (List.mem_singleton.1 hmem)
      obtain rfl := Option.some.inj heq
      exact .inr hx
  · rintro (⟨k', a', hmem, hx⟩ | hx)
    · exact ⟨k', a', List.mem_append_left _ hmem, hx⟩
    · exact ⟨k, a, List.mem_append_right _ (List.mem_singleton.2 rfl), hx⟩

theorem got_append_none {log : List (Int × Option Nat)} {k : Int} {x : Nat} :
    Got (log ++ [(k, none)]) x ↔ Got log x := by
  constructor
  · rintro ⟨k', a', hmem, hx⟩
    obtain hmem | hmem := List.mem_append.1 hmem
    · exact ⟨k', a', hmem, hx⟩
    · cases (Prod.mk.inj (List.mem_singleton.1 hmem)).2
  · rintro ⟨k', a', hmem, hx⟩
    exact ⟨k', a', List.mem_append_left _ hmem, hx⟩

/-- A failure changes nothing. -/
theorem Inv.sbrk_none (hinv : Inv base h live blocks) (k : Int) :
    Inv base { h with log := h.log ++ [(k, none)] } live blocks :=
  { hinv with cover := fun _ => got_append_none.trans (hinv.cover _) }

/-- Memory obtained and given a header is like a held block. -/
theorem Inv.sbrk_some (hinv : Inv base h live blocks) {a nu : Nat} {k : Int} (hnu : 0 < nu)
    (hk : k = 16 * nu) (hfresh : Fresh base h.log (some a)) :
    Inv base { h with mem := setSize h.mem a nu, log := h.log ++ [(k, some a)], recorded := h.recorded ++ [(k, nu)] }
      (⟨a, a + 16 * nu⟩ :: live) blocks := by
  obtain ⟨halign, hbase, habove⟩ := hfresh a rfl
  -- all blocks lie below the new one
  have hlow : ∀ {s : Span}, s ∈ blocks ∨ s ∈ live → s.lo < s.hi → s.hi ≤ a := by
    intro s hs hne
    have hcover : Got h.log (s.hi - 1) := by
      rw [hinv.cover]
      exact hs.imp (fun hs => ⟨s, hs, by omega⟩) fun hs => ⟨s, hs, by omega⟩
    have := habove _ hcover
    omega
  have hother : ∀ {s : Span}, s ∈ blocks ∨ s ∈ live → s.lo < s.hi → setSize h.mem a nu s.lo = h.mem s.lo := by
    intro s hs hne
    have := hlow hs hne
    exact setSize_of_ne (by omega)
  refine ⟨hinv.links.congr ?_, hinv.freep, hinv.separated, hinv.proper, ?_, ?_, ?_, ?_⟩
  · intro b hb
    obtain rfl | hb := List.mem_cons.1 hb
    · exact setSize_of_ne (show base ≠ a by omega)
    · exact hother (.inl hb) (hinv.proper b hb).2.2
  · intro t ht
    obtain rfl | ht := List.mem_cons.1 ht
    · refine ⟨⟨halign, hbase, ?_⟩, ?_⟩
      · show a < a + 16 * nu
        omega
      · show a + 16 * nu = a + 16 * (setSize h.mem a nu a).size
        rw [setSize_self]
    · obtain ⟨htp, htsize⟩ := hinv.liveProper t ht
      refine ⟨htp, ?_⟩
      show t.hi = t.lo + 16 * (setSize h.mem a nu t.lo).size
      rw [hother (.inr ht) htp.2.2]
      exact htsize
  · refine List.pairwise_cons.2 ⟨fun t ht => .inr ?_, hinv.liveDisjoint⟩
    exact hlow (.inr ht) (hinv.liveProper t ht).1.2.2
  · intro b hb t ht
    obtain rfl | ht := List.mem_cons.1 ht
    · exact .inl (hlow (.inl hb) (hinv.proper b hb).2.2)
    · exact hinv.disjoint b hb t ht
  · intro x
    have hnew : a ≤ x ∧ (x : Int) < a + k ↔ a ≤ x ∧ x < a + 16 * nu := by omega
    show Got (h.log ++ [(k, some a)]) x ↔ _
    rw [got_append, hinv.cover, covers_cons, hnew, or_assoc]
    exact or_congr_right or_comm

end

/-! ## Taking a block -/

section
variable {base : Nat} {h : Heap} {live blocks before after ys : List Span} {x y : Span}

/-- The block behind `prevp`. -/
theorem Inv.behind (hinv : Inv base h live blocks) {prevp : Nat}
    (hprev : prevp ∈ (baseSpan base :: blocks).map Span.lo) (hy : y ∈ blocks)
    (hptr : (h.mem prevp).ptr = y.lo) :
    ∃ before x after, baseSpan base :: blocks = before ++ x :: y :: after ∧ x.lo = prevp := by
  obtain ⟨x, hx, rfl⟩ := List.mem_map.1 hprev
  obtain ⟨before, after, hsplit⟩ := List.append_of_mem hx
  have hlinks := hinv.links
  rw [hsplit] at hlinks
  obtain ⟨r, -, hrest⟩ := links_append.1 hlinks
  obtain ⟨-, -, hafter⟩ := links_cons.1 hrest
  rw [hptr] at hafter
  cases after with
  | nil =>
    have hbase : y.lo = base := hafter.1
    have := (hinv.proper y hy).2.1
    omega
  | cons z after =>
    have hlo : y.lo = z.lo := (links_cons.1 hafter).1
    have hz : z ∈ baseSpan base :: blocks := by
      rw [hsplit]
      exact List.mem_append_right _ (List.mem_cons_of_mem _ (List.mem_cons_self ..))
    have hyb := hinv.bounds (List.mem_cons_of_mem _ hy)
    have hzb := hinv.bounds hz
    obtain rfl | hlt | hlt := hinv.separatedNodes.mem (List.mem_cons_of_mem _ hy) hz
    · exact ⟨before, x, after, hsplit, rfl⟩
    · omega
    · omega

theorem or_move_last {p q r s c : Prop} : p ∨ q ∨ (r ∨ c) ∨ s ↔ (p ∨ q ∨ r ∨ s) ∨ c := by
  tauto

/-- What is left of the block `y` when it is cut at `a`. -/
def Remains (y : Span) (a : Nat) (ys : List Span) : Prop :=
  a = y.lo ∧ ys = [] ∨ y.lo < a ∧ ys = [⟨y.lo, a⟩]

/-- A block that is cut at `a` keeps what is below, and what is above is held. -/
theorem Inv.cut (hinv : Inv base h live blocks) (hsplit : baseSpan base :: blocks = before ++ x :: y :: after)
    {a : Nat} {mem : Nat → Header} (hys : Remains y a ys) (halign : 16 ∣ a) (ha : a < y.hi)
    (hlinks : Links mem base (before ++ x :: (ys ++ after)) base) (hsize : y.hi = a + 16 * (mem a).size)
    (hframe : ∀ z, ¬ Own base blocks z → mem z = h.mem z) :
    ∃ blocks', Inv base { h with mem := mem, freep := x.lo } (⟨a, y.hi⟩ :: live) blocks' := by
  have hyb : y ∈ blocks := by
    cases before with
    | nil => exact (List.cons.inj hsplit).2 ▸ List.mem_cons_self ..
    | cons b before =>
      exact (List.cons.inj hsplit).2 ▸ List.mem_append_right _ (List.mem_cons_of_mem _ (List.mem_cons_self ..))
  have hylo : y.lo ≤ a := by
    obtain ⟨rfl, -⟩ | ⟨hlt, -⟩ := hys
    · exact Nat.le_refl _
    · exact Nat.le_of_lt hlt
  have hmemYs : ∀ s ∈ ys, s.lo = y.lo ∧ s.hi = a ∧ s.lo < a := by
    intro s hs
    obtain ⟨-, rfl⟩ | ⟨hlt, rfl⟩ := hys
    · cases hs
    · obtain rfl := List.mem_singleton.1 hs
      exact ⟨rfl, rfl, hlt⟩
  have hcoverYs : ∀ z, (y.lo ≤ z ∧ z < y.hi ↔ Covers ys z ∨ a ≤ z ∧ z < y.hi) := by
    intro z
    obtain ⟨rfl, rfl⟩ | ⟨hlt, rfl⟩ := hys
    · exact ⟨.inr, fun hz => hz.resolve_left covers_nil⟩
    · rw [covers_cons, or_iff_left covers_nil]
      show _ ↔ y.lo ≤ z ∧ z < a ∨ _
      omega
  obtain ⟨hproperY1, hproperY2, hproperY3⟩ := hinv.proper y hyb
  obtain ⟨blocks', hnodes⟩ : ∃ blocks', before ++ x :: (ys ++ after) = baseSpan base :: blocks' := by
    cases before with
    | nil => exact ⟨ys ++ after, (List.cons.inj hsplit).1 ▸ rfl⟩
    | cons b before => exact ⟨before ++ x :: (ys ++ after), (List.cons.inj hsplit).1 ▸ rfl⟩
  have hsep := hinv.separatedNodes
  rw [hsplit] at hsep
  obtain ⟨hbefore, hrest, hcross⟩ := List.pairwise_append.1 hsep
  obtain ⟨hx, hrest⟩ := List.pairwise_cons.1 hrest
  obtain ⟨hy, hafter⟩ := List.pairwise_cons.1 hrest
  have hapart : ∀ s ∈ before ++ x :: (ys ++ after), s.hi ≤ a ∨ y.hi ≤ s.lo := by
    intro s hs
    obtain hs | hs := List.mem_append.1 hs
    · have := hcross s hs y (List.mem_cons_of_mem _ (List.mem_cons_self ..))
      omega
    · obtain rfl | hs := List.mem_cons.1 hs
      · have := hx y (List.mem_cons_self ..)
        omega
      · obtain hs | hs := List.mem_append.1 hs
        · exact .inl (Nat.le_of_eq (hmemYs s hs).2.1)
        · exact .inr (Nat.le_of_lt (hy s hs))
  have hsep' : Separated (before ++ x :: (ys ++ after)) := by
    have hinner : Separated (ys ++ after) := by
      refine List.pairwise_append.2 ⟨?_, hafter, ?_⟩
      · obtain ⟨-, rfl⟩ | ⟨-, rfl⟩ := hys
        · exact List.Pairwise.nil
        · exact List.pairwise_singleton _ _
      · intro s hs t ht
        have := hmemYs s hs
        have := hy t ht
        omega
    refine List.pairwise_append.2 ⟨hbefore, List.pairwise_cons.2 ⟨?_, hinner⟩, ?_⟩
    · intro s hs
      obtain hs | hs := List.mem_append.1 hs
      · rw [(hmemYs s hs).1]
        exact hx y (List.mem_cons_self ..)
      · exact hx s (List.mem_cons_of_mem _ hs)
    · intro s hs t ht
      obtain rfl | ht := List.mem_cons.1 ht
      · exact hcross s hs t (List.mem_cons_self ..)
      · obtain ht | ht := List.mem_append.1 ht
        · rw [(hmemYs t ht).1]
          exact hcross s hs y (List.mem_cons_of_mem _ (List.mem_cons_self ..))
        · exact hcross s hs t (List.mem_cons_of_mem _ (List.mem_cons_of_mem _ ht))
  have hnone : ∀ z, ¬ ((baseSpan base).lo ≤ z ∧ z < (baseSpan base).hi) := fun z hz =>
    Nat.lt_irrefl z (Nat.lt_of_lt_of_le hz.2 hz.1)
  have hcovers : ∀ z, Covers blocks z ↔ Covers blocks' z ∨ a ≤ z ∧ z < y.hi := by
    intro z
    have hold : Covers blocks z ↔ Covers (baseSpan base :: blocks) z := by
      rw [covers_cons, or_iff_right (hnone z)]
    have hnew : Covers blocks' z ↔ Covers (baseSpan base :: blocks') z := by
      rw [covers_cons, or_iff_right (hnone z)]
    rw [hold, hnew, hsplit, ← hnodes]
    simp only [covers_append, covers_cons, hcoverYs z]
    exact or_move_last
  rw [hnodes] at hsep' hlinks
  have hproper : ∀ s ∈ blocks', Proper base s := by
    intro s hs
    have hbelow := (List.pairwise_cons.1 hsep').1 s hs
    have hs' : s ∈ before ++ x :: (ys ++ after) := hnodes ▸ List.mem_cons_of_mem _ hs
    have hold : s ∈ before ++ x :: y :: after → Proper base s := by
      intro h
      rw [← hsplit] at h
      obtain rfl | h := List.mem_cons.1 h
      · exact absurd hbelow (Nat.lt_irrefl _)
      · exact hinv.proper s h
    simp only [List.mem_append, List.mem_cons] at hs' hold
    obtain hs' | rfl | hs' | hs' := hs'
    · exact hold (.inl hs')
    · exact hold (.inr (.inl rfl))
    · obtain ⟨hlo, hhi, hlt⟩ := hmemYs s hs'
      exact ⟨hlo ▸ hproperY1, hlo ▸ hproperY2, hhi ▸ hlt⟩
    · exact hold (.inr (.inr (.inr hs')))
  refine ⟨blocks', hlinks, ?_, (List.pairwise_cons.1 hsep').2, hproper, ?_, ?_, ?_, ?_⟩
  · rw [← hnodes]
    exact List.mem_map_of_mem (List.mem_append_right _ (List.mem_cons_self ..))
  · intro t ht
    obtain rfl | ht := List.mem_cons.1 ht
    · exact ⟨⟨halign, Nat.le_trans hproperY2 hylo, ha⟩, hsize⟩
    · obtain ⟨htp, htsize⟩ := hinv.liveProper t ht
      have hown : ¬ Own base blocks t.lo := by
        rintro (heq | hc)
        · have := htp.2.1
          omega
        · exact not_covers (fun b hb => hinv.disjoint b hb t ht) ⟨Nat.le_refl _, htp.2.2⟩ hc
      refine ⟨htp, ?_⟩
      show t.hi = t.lo + 16 * (mem t.lo).size
      rw [hframe _ hown]
      exact htsize
  · refine List.pairwise_cons.2 ⟨fun t ht => ?_, hinv.liveDisjoint⟩
    obtain hd | hd := hinv.disjoint y hyb t ht
    · exact .inl hd
    · exact .inr (Nat.le_trans hd hylo)
  · intro b hb t ht
    have hbp := (hproper b hb).2.2
    obtain rfl | ht := List.mem_cons.1 ht
    · exact hapart b (hnodes ▸ List.mem_cons_of_mem _ hb)
    · refine disjoint_of_forall hbp (hinv.liveProper t ht).1.2.2 fun z hz hzt => ?_
      exact not_covers (fun b hb => hinv.disjoint b hb t ht) hzt ((hcovers z).2 (.inl ⟨b, hb, hz⟩))
  · intro z
    show Got h.log z ↔ _
    rw [hinv.cover, hcovers, covers_cons]
    exact or_assoc

/-- **`take`** makes a held block of a free one, or of its last units. -/
theorem Inv.take (hinv : Inv base h live blocks) {prevp units : Nat}
    (hprev : prevp ∈ (baseSpan base :: blocks).map Span.lo) (hy : y ∈ blocks)
    (hptr : (h.mem prevp).ptr = y.lo) (hpos : 0 < units) (hfit : units ≤ (h.mem y.lo).size) :
    ∃ a h' blocks', Umalloc.take units prevp y.lo h = (.at (a + 16), h') ∧
      Inv base h' (⟨a, a + 16 * units⟩ :: live) blocks' ∧ h'.log = h.log ∧
      ∀ z, ¬ Own base blocks z → h'.mem z = h.mem z := by
  obtain ⟨before, x, after, hsplit, rfl⟩ := hinv.behind hprev hy hptr
  have hlinks := hinv.links
  have hsep := hinv.separatedNodes
  have hbounds : ∀ b ∈ before ++ x :: y :: after, b.lo ≤ b.hi := by
    rw [← hsplit]
    exact fun b hb => (hinv.bounds hb).2
  rw [hsplit] at hlinks hsep
  obtain ⟨r, hlinkBefore, hrest⟩ := links_append.1 hlinks
  obtain ⟨rfl, hxsize, hrest⟩ := links_cons.1 hrest
  obtain ⟨-, hysize, hlinkAfter⟩ := links_cons.1 hrest
  obtain ⟨-, hrest, hcross⟩ := List.pairwise_append.1 hsep
  obtain ⟨hxrest, hrest⟩ := List.pairwise_cons.1 hrest
  have hyafter := (List.pairwise_cons.1 hrest).1
  have hproper := hinv.proper y hy
  have hxx := hbounds x (List.mem_append_right _ (List.mem_cons_self ..))
  have hxy := hxrest y (List.mem_cons_self ..)
  have hbeforeX : ∀ b ∈ before, b.lo < x.lo := by
    intro b hb
    have := hcross b hb x (List.mem_cons_self ..)
    have := hbounds b (List.mem_append_left _ hb)
    omega
  have hx : x = baseSpan base ∨ x ∈ blocks :=
    List.mem_cons.1 (hsplit ▸ List.mem_append_right _ (List.mem_cons_self ..))
  have hownX : Own base blocks x.lo := by
    obtain rfl | hx := hx
    · exact .inl rfl
    · exact .inr ⟨x, hx, Nat.le_refl _, (hinv.proper x hx).2.2⟩
  rw [Umalloc.take]
  split
  · next hexact =>
    have hlinks' : Links (setPtr h.mem x.lo (h.mem y.lo).ptr) base (before ++ x :: ([] ++ after)) base := by
      refine links_append.2 ⟨x.lo, hlinkBefore.congr fun b hb => ?_, links_cons.2 ⟨rfl, ?_, ?_⟩⟩
      · exact setPtr_of_ne (Nat.ne_of_lt (hbeforeX b hb))
      · rw [setPtr_self]
        exact hxsize
      · rw [setPtr_self]
        refine hlinkAfter.congr fun b hb => setPtr_of_ne ?_
        have := hyafter b hb
        omega
    have hsize : (setPtr h.mem x.lo (h.mem y.lo).ptr y.lo).size = units := by
      rw [setPtr_of_ne (by omega), hexact]
    obtain ⟨blocks', hinv'⟩ := hinv.cut hsplit (a := y.lo) (.inl ⟨rfl, rfl⟩) hproper.1 hproper.2.2 hlinks'
      (by rw [hsize, ← hexact]; exact hysize)
      (fun z hz => setPtr_of_ne fun h => hz (h ▸ hownX))
    have hhi : y.hi = y.lo + 16 * units := by rw [← hexact]; exact hysize
    rw [hhi] at hinv'
    exact ⟨y.lo, _, blocks', rfl, hinv', rfl, fun z hz => setPtr_of_ne fun h => hz (h ▸ hownX)⟩
  · next hsplitOff =>
    have hlt : units < (h.mem y.lo).size := by omega
    have hne : y.lo + 16 * ((h.mem y.lo).size - units) ≠ y.lo := by omega
    have hmem : ∀ {z}, z ≠ y.lo → z ≠ y.lo + 16 * ((h.mem y.lo).size - units) →
        setSize (setSize h.mem y.lo ((h.mem y.lo).size - units))
          (y.lo + 16 * ((h.mem y.lo).size - units)) units z = h.mem z := by
      intro z hz hz'
      rw [setSize_of_ne hz', setSize_of_ne hz]
    have hmemY : setSize (setSize h.mem y.lo ((h.mem y.lo).size - units))
        (y.lo + 16 * ((h.mem y.lo).size - units)) units y.lo =
          ⟨(h.mem y.lo).ptr, (h.mem y.lo).size - units⟩ := by
      rw [setSize_of_ne hne.symm, setSize_self]
    have hlinks' : Links (setSize (setSize h.mem y.lo ((h.mem y.lo).size - units))
        (y.lo + 16 * ((h.mem y.lo).size - units)) units) base
        (before ++ x :: ([⟨y.lo, y.lo + 16 * ((h.mem y.lo).size - units)⟩] ++ after)) base := by
      refine links_append.2 ⟨x.lo, hlinkBefore.congr fun b hb => ?_, links_cons.2 ⟨rfl, ?_,
        links_cons.2 ⟨?_, ?_, ?_⟩⟩⟩
      · have := hbeforeX b hb
        exact hmem (by omega) (by omega)
      · rw [hmem (by omega) (by omega)]
        exact hxsize
      · rw [hmem (by omega) (by omega)]
        exact hptr
      · rw [hmemY]
      · rw [hmemY]
        refine hlinkAfter.congr fun b hb => ?_
        have := hyafter b hb
        exact hmem (by omega) (by omega)
    have hframe : ∀ z, ¬ Own base blocks z →
        setSize (setSize h.mem y.lo ((h.mem y.lo).size - units))
          (y.lo + 16 * ((h.mem y.lo).size - units)) units z = h.mem z := by
      intro z hz
      rw [Own, not_or] at hz
      refine hmem ?_ ?_
      · rintro rfl
        exact hz.2 ⟨y, hy, Nat.le_refl _, hproper.2.2⟩
      · rintro rfl
        exact hz.2 ⟨y, hy, by omega, by omega⟩
    have hhi : y.hi = y.lo + 16 * ((h.mem y.lo).size - units) + 16 * units := by omega
    obtain ⟨blocks', hinv'⟩ := hinv.cut hsplit (a := y.lo + 16 * ((h.mem y.lo).size - units))
      (.inr ⟨by omega, rfl⟩) (Nat.dvd_add hproper.1 (Nat.dvd_mul_right ..)) (by omega) hlinks'
      (by rw [setSize_self]; exact hhi) hframe
    rw [hhi] at hinv'
    exact ⟨_, _, blocks', rfl, hinv', rfl, hframe⟩

end

/-! ## The loop of `malloc` -/

section
variable {base units : Nat} {answers : Nat → Option Nat} {h : Heap} {live blocks : List Span}

/-- Past blocks that are too small, short of `freep`, the loop goes on. -/
theorem mallocFrom_walk {xs : List Nat} {prevp p e : Nat} (hchain : Chain (fun a => (h.mem a).ptr) p xs e)
    (hprev : (h.mem prevp).ptr = p) (hsmall : ∀ x ∈ xs, (h.mem x).size < units)
    (hfreep : h.freep ∉ xs) :
    ∃ prevp', (h.mem prevp').ptr = e ∧ (prevp' = prevp ∨ prevp' ∈ xs) ∧
      ∀ fuel, mallocFrom answers units (xs.length + fuel) prevp p h =
        mallocFrom answers units fuel prevp' e h := by
  induction xs generalizing prevp p with
  | nil =>
    obtain rfl : p = e := hchain
    refine ⟨prevp, hprev, .inl rfl, fun fuel => ?_⟩
    rw [List.length_nil, Nat.zero_add]
  | cons x xs ih =>
    obtain ⟨rfl, hchain⟩ := hchain
    obtain ⟨prevp', hptr, hmem, hrun⟩ := ih hchain rfl (fun x hx => hsmall x (List.mem_cons_of_mem _ hx))
      (List.not_mem_of_not_mem_cons hfreep)
    refine ⟨prevp', hptr, .inr ?_, fun fuel => ?_⟩
    · obtain rfl | hmem := hmem
      · exact List.mem_cons_self ..
      · exact List.mem_cons_of_mem _ hmem
    · have hlt := hsmall p (List.mem_cons_self ..)
      rw [List.length_cons, Nat.add_right_comm, mallocFrom, if_neg (Nat.not_le_of_lt hlt),
        if_neg (List.ne_of_not_mem_cons hfreep).symm]
      exact hrun fuel

theorem Inv.nodup (hinv : Inv base h live blocks) : ((baseSpan base :: blocks).map Span.lo).Nodup := by
  have hbounds : ∀ b ∈ baseSpan base :: blocks, b.lo ≤ b.hi := fun b hb => (hinv.bounds hb).2
  refine List.pairwise_map.2 (hinv.separatedNodes.imp_of_mem ?_)
  intro s t hs _ hst
  have := hbounds s hs
  omega

theorem Inv.size_base (hinv : Inv base h live blocks) : (h.mem base).size = 0 := by
  have hbase : base = base + 16 * (h.mem base).size := hinv.links.2 (baseSpan base) (List.mem_cons_self ..)
  omega

/-- A list with a block that is large enough: it is found, and `sbrk` is not called. -/
theorem Inv.mallocFrom_fits (hinv : Inv base h live blocks) (hpos : 0 < units)
    (hfit : ∃ b ∈ blocks, units ≤ (h.mem b.lo).size) :
    ∃ a h' blocks', Inv base h' (⟨a, a + 16 * units⟩ :: live) blocks' ∧ h'.log = h.log ∧
      (∀ z, ¬ Own base blocks z → h'.mem z = h.mem z) ∧
      ∀ fuel, blocks.length + 1 ≤ fuel →
        mallocFrom answers units fuel h.freep (h.mem h.freep).ptr h = (.at (a + 16), h') := by
  obtain ⟨xs, hchain, hlength, hmem, hnot⟩ := links_from hinv.links hinv.freep
  obtain ⟨b, hb, hunits⟩ := hfit
  have hb' : b.lo ∈ xs ++ [h.freep] := by
    rw [hmem]
    exact List.mem_map_of_mem (List.mem_cons_of_mem _ hb)
  -- the first block on the way that is large enough
  obtain ⟨y, hfind⟩ : ∃ y, (xs ++ [h.freep]).find? (fun x => decide (units ≤ (h.mem x).size)) = some y :=
    Option.isSome_iff_exists.1 (List.find?_isSome.2 ⟨b.lo, hb', decide_eq_true hunits⟩)
  obtain ⟨hy, before, after, hsplit, hbefore⟩ := List.find?_eq_some_iff_append.1 hfind
  have hfreep : h.freep ∉ before := by
    have hprefix : before <+: xs := by
      refine @List.prefix_of_prefix_length_le _ _ _ (xs ++ [h.freep]) ?_ (List.prefix_append ..) ?_
      · rw [hsplit]
        exact List.prefix_append ..
      · have := congrArg List.length hsplit
        simp only [List.length_append, List.length_cons, List.length_nil] at this
        omega
    exact fun h => hnot hinv.nodup (List.IsPrefix.subset hprefix h)
  have hymem : y ∈ (baseSpan base :: blocks).map Span.lo := by
    rw [← hmem, hsplit]
    exact List.mem_append_right _ (List.mem_cons_self ..)
  obtain ⟨c, hc, rfl⟩ := List.mem_map.1 hymem
  have hcb : c ∈ blocks := by
    obtain rfl | hc := List.mem_cons.1 hc
    · have hzero : (h.mem (baseSpan base).lo).size = 0 := hinv.size_base
      have := of_decide_eq_true hy
      omega
    · exact hc
  rw [hsplit] at hchain
  obtain ⟨r, hwalk, hr, -⟩ := chain_append.1 hchain
  rw [hr] at hwalk
  obtain ⟨prevp, hptr, hprev, hrun⟩ := @mallocFrom_walk units answers _ _ _ _ _ hwalk rfl
    (fun x hx => Nat.lt_of_not_le (by simpa using hbefore x hx)) hfreep
  have hprevMem : prevp ∈ (baseSpan base :: blocks).map Span.lo := by
    obtain rfl | hprev := hprev
    · exact hinv.freep
    · rw [← hmem, hsplit]
      exact List.mem_append_left _ hprev
  obtain ⟨a, h', blocks', htake, hinv', hlog, hframe⟩ :=
    hinv.take hprevMem hcb hptr hpos (of_decide_eq_true hy)
  refine ⟨a, h', blocks', hinv', hlog, hframe, fun fuel hfuel => ?_⟩
  have hshort : before.length + 1 ≤ fuel := by
    have := congrArg List.length hsplit
    simp only [List.length_append, List.length_cons, List.length_nil] at this hlength
    omega
  obtain ⟨k, rfl⟩ := Nat.exists_eq_add_of_le hshort
  rw [Nat.add_assoc, hrun, Nat.add_comm 1 k, mallocFrom, if_pos (of_decide_eq_true hy), htake]

/-- A list without such a block: the loop comes to `freep` and finds that it is too small. -/
theorem Inv.mallocFrom_around (hinv : Inv base h live blocks) (hpos : 0 < units)
    (hsmall : ∀ b ∈ blocks, (h.mem b.lo).size < units) :
    (h.mem h.freep).size < units ∧
    ∃ prevp, ∀ fuel, mallocFrom answers units (blocks.length + fuel) h.freep (h.mem h.freep).ptr h =
      mallocFrom answers units fuel prevp h.freep h := by
  obtain ⟨xs, hchain, hlength, hmem, hnot⟩ := links_from hinv.links hinv.freep
  have hall : ∀ x ∈ (baseSpan base :: blocks).map Span.lo, (h.mem x).size < units := by
    intro x hx
    obtain ⟨b, hb, rfl⟩ := List.mem_map.1 hx
    obtain rfl | hb := List.mem_cons.1 hb
    · show (h.mem base).size < units
      rw [hinv.size_base]
      exact hpos
    · exact hsmall b hb
  obtain ⟨r, hwalk, hr, -⟩ := chain_append.1 hchain
  rw [hr] at hwalk
  obtain ⟨prevp, -, -, hrun⟩ := @mallocFrom_walk units answers _ _ _ _ _ hwalk rfl
    (fun x hx => hall x ((hmem x).1 (List.mem_append_left _ hx))) (hnot hinv.nodup)
  have hlen : xs.length = blocks.length := Nat.succ.inj hlength
  rw [hlen] at hrun
  exact ⟨hall _ hinv.freep, prevp, hrun⟩

/-- What `malloc` makes of the heap: it returns null and the blocks are the same, or it returns memory of a
new held block.  It writes to no held block. -/
def Served (base : Nat) (answers : Nat → Option Nat) (nbytes : Nat) (h : Heap) (live : List Span) : Prop :=
  ∃ N h', (∀ t ∈ live, ∀ z, t.lo ≤ z → z < t.hi → h'.mem z = h.mem z) ∧
    ((∃ blocks', Inv base h' live blocks' ∧
        ∀ fuel, N ≤ fuel → malloc base answers fuel nbytes h = (.null, h')) ∨
      ∃ a blocks', Inv base h' (⟨a, a + 16 * nunits nbytes⟩ :: live) blocks' ∧
        ∀ fuel, N ≤ fuel → malloc base answers fuel nbytes h = (.at (a + 16), h'))

/-- No held block is the allocator's own memory. -/
theorem Inv.not_own (hinv : Inv base h live blocks) {t : Span} (ht : t ∈ live) {z : Nat} (hlo : t.lo ≤ z)
    (hhi : z < t.hi) : ¬ Own base blocks z := by
  rintro (rfl | hc)
  · have := (hinv.liveProper t ht).1.2.1
    omega
  · exact not_covers (fun b hb => hinv.disjoint b hb t ht) ⟨hlo, hhi⟩ hc

theorem Inv.freep_ne_zero (hinv : Inv base h live blocks) (hbase : 0 < base) : h.freep ≠ 0 := by
  obtain ⟨b, hb, hlo⟩ := List.mem_map.1 hinv.freep
  have := (hinv.bounds hb).1
  omega

/-- A free list that has been set up is not set up again. -/
theorem Inv.initialise (hinv : Inv base h live blocks) (hbase : 0 < base) :
    Umalloc.initialise base h = h := by
  rw [Umalloc.initialise, if_neg (hinv.freep_ne_zero hbase)]

/-- What `morecore` adds to the log. -/
def call (answers : Nat → Option Nat) (units : Nat) (h : Heap) : Int × Option Nat :=
  (toInt32 (max units 4096 * 16), answers h.log.length)

/-- **`morecore`**, when `sbrk` has memory: the new memory is in the list, in one block. -/
theorem Inv.morecore_some (hinv : Inv base h live blocks) (hsmall : units < 2 ^ 27) {a : Nat}
    (hanswer : answers h.log.length = some a) (hfresh : Fresh base h.log (some a))
    (hroom : Roomy (h.log ++ [call answers units h]) live) :
    ∃ h' blocks', Inv base h' live blocks' ∧ h'.log = h.log ++ [call answers units h] ∧
      (∀ t ∈ live, ∀ z, t.lo ≤ z → z < t.hi → h'.mem z = h.mem z) ∧
      (∃ b ∈ blocks', units ≤ (h'.mem b.lo).size) ∧
      ∀ fuel, blocks.length + 1 ≤ fuel → morecore answers fuel units h = (some h'.freep, h') := by
  have hmax : (if units < 4096 then 4096 else units) = max units 4096 := by
    split <;> omega
  have hsize : max units 4096 * 16 < 2 ^ 31 := by omega
  have hk : toInt32 (max units 4096 * 16) = 16 * (max units 4096 : Nat) := by
    rw [toInt32_eq_iff.2 hsize]
    omega
  have hinv1 := @Inv.sbrk_some _ _ _ _ hinv _ (max units 4096) _ (by omega) hk hfresh
  have hcall : call answers units h = (toInt32 (max units 4096 * 16), some a) := by
    rw [call, hanswer]
  rw [hcall] at hroom ⊢
  obtain ⟨h', blocks', hrun, hinv', hlog, hframe⟩ := hinv1.free hroom
  refine ⟨h', blocks', hinv', hlog, ?_, ?_, ?_⟩
  · intro t ht z hlo hhi
    have hd := (List.pairwise_cons.1 hinv1.liveDisjoint).1 t ht
    have hza : z ≠ a := by
      obtain hd | hd := hd
      · replace hd : a + 16 * max units 4096 ≤ t.lo := hd
        omega
      · replace hd : t.hi ≤ a := hd
        omega
    rw [hframe z]
    · exact setSize_of_ne hza
    · rintro (rfl | hc)
      · exact hinv.not_own ht hlo hhi (.inl rfl)
      · obtain hc | hc := covers_cons.1 hc
        · obtain hd | hd := hd
          · exact absurd hc.2 (Nat.not_lt_of_le (Nat.le_trans hd hlo))
          · exact absurd (Nat.le_trans hd hc.1) (Nat.not_le_of_lt hhi)
        · exact hinv.not_own ht hlo hhi (.inr hc)
  · -- the new memory lies in one block of the list
    obtain ⟨b, hb, hlo, hhi⟩ := @Separated.interval _ hinv'.separated a (a + 16 * max units 4096) (by omega)
      (by
        intro x hlo hhi
        have hgot : Got h'.log x := by
          rw [hlog]
          exact got_append.2 (.inr ⟨hlo, by omega⟩)
        refine ((hinv'.cover x).1 hgot).resolve_right ?_
        rintro ⟨t, ht, htx⟩
        have hd := (List.pairwise_cons.1 hinv1.liveDisjoint).1 t ht
        obtain hd | hd := hd
        · replace hd : a + 16 * max units 4096 ≤ t.lo := hd
          omega
        · replace hd : t.hi ≤ a := hd
          omega)
    have hbsize := hinv'.links.2 b (List.mem_cons_of_mem _ hb)
    exact ⟨b, hb, by omega⟩
  · intro fuel hfuel
    have hrun' : Umalloc.free fuel { h with
        mem := setSize h.mem a (max units 4096)
        log := h.log ++ [(toInt32 (max units 4096 * 16), some a)]
        recorded := h.recorded ++ [(toInt32 (max units 4096 * 16), max units 4096)] } (a + 16) = some h' :=
      hrun fuel hfuel
    simp only [morecore, sbrk, hmax, hanswer, hrun']

/-- **`malloc`** comes to its end, and keeps the invariant. -/
theorem Inv.malloc (hinv : Inv base h live blocks) (hbase : 0 < base) {nbytes : Nat}
    (hmeets : (∃ b ∈ blocks, nunits nbytes ≤ (h.mem b.lo).size) ∨ nbytes ≤ 2 ^ 31 - 32 ∧
      Fresh base h.log (answers h.log.length) ∧
      Roomy (h.log ++ [call answers (nunits nbytes) h]) live) :
    Served base answers nbytes h live := by
  have hpos : 0 < nunits nbytes := Nat.succ_pos _
  have hstart : ∀ fuel, Umalloc.malloc base answers fuel nbytes h =
      mallocFrom answers (nunits nbytes) fuel h.freep (h.mem h.freep).ptr h := by
    intro fuel
    simp only [Umalloc.malloc, hinv.initialise hbase]
  by_cases hfit : ∃ b ∈ blocks, nunits nbytes ≤ (h.mem b.lo).size
  · obtain ⟨a, h', blocks', hinv', -, hframe, hrun⟩ := @Inv.mallocFrom_fits _ _ answers _ _ _ hinv hpos hfit
    refine ⟨blocks.length + 1, h', fun t ht z hlo hhi => hframe z (hinv.not_own ht hlo hhi),
      .inr ⟨a, blocks', hinv', fun fuel hfuel => ?_⟩⟩
    rw [hstart, hrun fuel hfuel]
  · obtain ⟨hbytes, hfresh, hroom⟩ := hmeets.resolve_left hfit
    have hsmall : ∀ b ∈ blocks, (h.mem b.lo).size < nunits nbytes :=
      fun b hb => Nat.lt_of_not_le fun hle => hfit ⟨b, hb, hle⟩
    have hunits : nunits nbytes < 2 ^ 27 := by
      rw [nunits]
      omega
    obtain ⟨hlast, prevp, haround⟩ := @Inv.mallocFrom_around _ _ answers _ _ _ hinv hpos hsmall
    have hnotFit := Nat.not_le_of_lt hlast
    cases hanswer : answers h.log.length with
    | none =>
      refine ⟨blocks.length + 1, { h with log := h.log ++ [call answers (nunits nbytes) h] },
        fun _ _ _ _ _ => rfl, .inl ⟨blocks, ?_, fun fuel hfuel => ?_⟩⟩
      · rw [call, hanswer]
        exact hinv.sbrk_none _
      · obtain ⟨k, rfl⟩ := Nat.exists_eq_add_of_le hfuel
        have hmax : (if nunits nbytes < 4096 then 4096 else nunits nbytes) = max (nunits nbytes) 4096 := by
          split <;> omega
        rw [hstart, Nat.add_assoc, haround, Nat.add_comm 1 k, mallocFrom, if_neg hnotFit, if_pos rfl]
        simp only [morecore, sbrk, hmax, call, hanswer, if_true]
    | some a =>
      rw [hanswer] at hfresh
      obtain ⟨h1, blocks1, hinv1, -, hframe1, hfit1, hmore⟩ :=
        hinv.morecore_some hunits hanswer hfresh hroom
      obtain ⟨b, h', blocks', hinv', -, hframe, hrun⟩ := @Inv.mallocFrom_fits _ _ answers _ _ _ hinv1 hpos hfit1
      refine ⟨blocks.length + (blocks.length + 1 + (blocks1.length + 1)) + 1, h', ?_,
        .inr ⟨b, blocks', hinv', fun fuel hfuel => ?_⟩⟩
      · intro t ht z hlo hhi
        rw [hframe z (hinv1.not_own ht hlo hhi)]
        exact hframe1 t ht z hlo hhi
      · obtain ⟨k, rfl⟩ := Nat.exists_eq_add_of_le hfuel
        have hfuel' : blocks.length + (blocks.length + 1 + (blocks1.length + 1)) + 1 + k =
            blocks.length + (blocks.length + 1 + (blocks1.length + 1) + k + 1) := by omega
        rw [hstart, hfuel', haround, mallocFrom, if_neg hnotFit, if_pos rfl]
        simp only [hmore _ (show blocks.length + 1 ≤ blocks.length + 1 + (blocks1.length + 1) + k by omega),
          if_neg (hinv1.freep_ne_zero hbase)]
        exact hrun _ (by omega)

end

/-! ## More rounds -/

section
variable {base units fuel prevp p : Nat} {answers : Nat → Option Nat} {h : Heap}

theorem free_mono {h' : Heap} {ap : Nat} (hfree : free fuel h ap = some h') (k : Nat) :
    free (fuel + k) h ap = some h' := by
  simp only [free] at hfree ⊢
  cases hs : search h.mem (ap - 16) fuel h.freep with
  | none =>
    rw [hs] at hfree
    cases hfree
  | some q =>
    rw [hs] at hfree
    rw [search_mono hs k]
    exact hfree

theorem morecore_mono (hdone : (morecore answers fuel units h).1 ≠ none) (k : Nat) :
    morecore answers (fuel + k) units h = morecore answers fuel units h := by
  simp only [morecore] at hdone ⊢
  cases hs : (sbrk answers h (toInt32 ((if units < 4096 then 4096 else units) * 16))).1 with
  | none => simp only
  | some a =>
    simp only [hs] at hdone ⊢
    split at hdone
    · exact absurd rfl hdone
    · next hfree => simp only [free_mono hfree k]

theorem mallocFrom_mono (hdone : (mallocFrom answers units fuel prevp p h).1 ≠ .running) (k : Nat) :
    mallocFrom answers units (fuel + k) prevp p h = mallocFrom answers units fuel prevp p h := by
  induction fuel generalizing prevp p h with
  | zero => exact absurd rfl hdone
  | succ fuel ih =>
    rw [mallocFrom] at hdone
    rw [Nat.add_right_comm, mallocFrom, mallocFrom]
    split at hdone
    · next hfit => rw [if_pos hfit, if_pos hfit]
    · next hfit =>
      rw [if_neg hfit, if_neg hfit]
      split at hdone
      · next hfreep =>
        rw [if_pos hfreep, if_pos hfreep]
        have hmore : (morecore answers fuel units h).1 ≠ none := by
          intro hnone
          simp only [hnone, ne_eq, not_true_eq_false] at hdone
        rw [morecore_mono hmore k]
        cases hr : (morecore answers fuel units h).1 with
        | none => exact absurd hr hmore
        | some q =>
          simp only [hr] at hdone ⊢
          split
          · rfl
          · next hq =>
            rw [if_neg hq] at hdone
            exact ih hdone
      · next hfreep =>
        rw [if_neg hfreep, if_neg hfreep]
        exact ih hdone

/-- What `malloc` comes to does not depend on how long one waits. -/
theorem malloc_unique {nbytes fuel' : Nat} (hdone : (malloc base answers fuel nbytes h).1 ≠ .running)
    (hdone' : (malloc base answers fuel' nbytes h).1 ≠ .running) :
    malloc base answers fuel nbytes h = malloc base answers fuel' nbytes h := by
  simp only [malloc] at hdone hdone' ⊢
  rw [← mallocFrom_mono hdone fuel', ← mallocFrom_mono hdone' fuel, Nat.add_comm]

theorem free_unique {h' h'' : Heap} {ap fuel' : Nat} (hfree : free fuel h ap = some h')
    (hfree' : free fuel' h ap = some h'') : h' = h'' := by
  have heq := free_mono hfree fuel'
  rw [Nat.add_comm, free_mono hfree' fuel] at heq
  exact (Option.some.inj heq).symm

end

/-! ## Runs -/

/-- The heap, and the blocks that the program holds. -/
structure World where
  heap : Heap
  live : List Span

/-- What a program does with the heap. -/
inductive Op
  | malloc (nbytes : Nat)
  /-- `free` of the pointer behind the header of the block. -/
  | free (l : Span)
  | write

/-- A call that returns, or a write. -/
inductive Step (base : Nat) (answers : Nat → Option Nat) : World → Op → World → Prop
  /-- `malloc` returns a pointer; the block before it is as large as its header says. -/
  | malloc {w : World} {nbytes fuel p : Nat} {h : Heap} (hbytes : nbytes < 2 ^ 32)
      (hrun : Umalloc.malloc base answers fuel nbytes w.heap = (.at p, h)) :
      Step base answers w (.malloc nbytes) ⟨h, ⟨p - 16, p - 16 + 16 * (h.mem (p - 16)).size⟩ :: w.live⟩
  /-- `malloc` returns null. -/
  | null {w : World} {nbytes fuel : Nat} {h : Heap} (hbytes : nbytes < 2 ^ 32)
      (hrun : Umalloc.malloc base answers fuel nbytes w.heap = (.null, h)) :
      Step base answers w (.malloc nbytes) ⟨h, w.live⟩
  | free {w : World} {l : Span} {fuel : Nat} {h : Heap} (hl : l ∈ w.live)
      (hrun : Umalloc.free fuel w.heap (l.lo + 16) = some h) :
      Step base answers w (.free l) ⟨h, w.live.erase l⟩
  /-- The program writes to what it holds, and to memory that is not the allocator's. -/
  | write {w : World} {mem : Nat → Header}
      (hwrite : ∀ a, 16 ∣ a ∨ a = base → mem a = w.heap.mem a ∨
        (∃ l ∈ w.live, l.lo + 16 ≤ a ∧ a < l.hi) ∨ a ≠ base ∧ ¬ Got w.heap.log a) :
      Step base answers w .write ⟨{ w.heap with mem := mem }, w.live⟩

/-- What is assumed of `sbrk`, for a call of `malloc`. -/
def Trusted (base : Nat) (answers : Nat → Option Nat) (w : World) : Op → Prop
  | .malloc _ => Fresh base w.heap.log (answers w.heap.log.length)
  | _ => True

/-- The free list has a block that is large enough, when it is followed from `freep`. -/
def HasRoom (units : Nat) (h : Heap) : Prop := ∃ n, units ≤ (h.mem (nth h (n + 1))).size

/-- **The condition** on a step: a request that the free list cannot serve is at most 2^31 - 32 bytes, and
there are never as many as 2^36 free bytes in a row. -/
def Meets (base : Nat) (answers : Nat → Option Nat) (w : World) : Op → Prop
  | .malloc nbytes => HasRoom (nunits nbytes) (initialise base w.heap) ∨ nbytes ≤ 2 ^ 31 - 32 ∧
      Roomy (w.heap.log ++ [call answers (nunits nbytes) w.heap]) w.live
  | .free l => Roomy w.heap.log (w.live.erase l)
  | .write => True

/-- A process that has not called `malloc`. -/
def start (mem : Nat → Header) : World := ⟨⟨mem, 0, [], []⟩, []⟩

/-- The worlds that are reached by steps that meet the condition. -/
inductive Reach (base : Nat) (answers : Nat → Option Nat) : World → Prop
  | start (mem : Nat → Header) : Reach base answers (start mem)
  | step {w w' : World} {op : Op} (hreach : Reach base answers w) (htrusted : Trusted base answers w op)
      (hmeets : Meets base answers w op) (hstep : Step base answers w op w') : Reach base answers w'

/-- The invariant of a run: there is no list yet, or it is as it should be. -/
def Ready (base : Nat) (w : World) : Prop :=
  (w.heap.freep = 0 ∧ w.live = [] ∧ ∀ x, ¬ Got w.heap.log x) ∨ ∃ blocks, Inv base w.heap w.live blocks

section
variable {base : Nat} {answers : Nat → Option Nat} {w w' : World}

theorem initialise_inv {h : Heap} (hfreep : h.freep = 0) (hgot : ∀ x, ¬ Got h.log x) :
    Inv base (initialise base h) [] [] := by
  have hmem : setSize (setPtr h.mem base base) base 0 base = ⟨base, 0⟩ := by
    rw [setSize_self, setPtr_self]
  rw [initialise, if_pos hfreep]
  refine ⟨links_cons.2 ⟨rfl, ?_, ?_⟩, List.mem_singleton.2 rfl, List.Pairwise.nil, List.forall_mem_nil _,
    List.forall_mem_nil _, List.Pairwise.nil, List.forall_mem_nil _, fun x => ?_⟩
  · show base = base + 16 * (setSize (setPtr h.mem base base) base 0 base).size
    rw [hmem]
    rfl
  · show Links _ (setSize (setPtr h.mem base base) base 0 base).ptr [] base
    rw [hmem]
    exact ⟨rfl, List.forall_mem_nil _⟩
  · exact iff_of_false (hgot x) fun h => h.elim covers_nil covers_nil

/-- The order in which the held blocks are listed does not matter. -/
theorem Inv.perm {h : Heap} {live live' blocks : List Span} (hinv : Inv base h live blocks)
    (hperm : live.Perm live') : Inv base h live' blocks := by
  have hcovers : ∀ x, Covers live' x ↔ Covers live x := by
    intro x
    simp only [Covers, hperm.mem_iff]
  refine { hinv with liveProper := ?_, liveDisjoint := ?_, disjoint := ?_, cover := ?_ }
  · exact fun l hl => hinv.liveProper l (hperm.mem_iff.2 hl)
  · exact hperm.pairwise hinv.liveDisjoint fun h => h.symm
  · exact fun b hb l hl => hinv.disjoint b hb l (hperm.mem_iff.2 hl)
  · intro x
    rw [hcovers]
    exact hinv.cover x

/-- What the program writes does not touch the list or a header. -/
theorem Inv.write {h : Heap} {live blocks : List Span} (hinv : Inv base h live blocks) {mem : Nat → Header}
    (hwrite : ∀ a, 16 ∣ a ∨ a = base → mem a = h.mem a ∨
      (∃ l ∈ live, l.lo + 16 ≤ a ∧ a < l.hi) ∨ a ≠ base ∧ ¬ Got h.log a) :
    Inv base { h with mem := mem } live blocks := by
  have hnode : ∀ b ∈ baseSpan base :: blocks, mem b.lo = h.mem b.lo := by
    intro b hb
    obtain rfl | hb := List.mem_cons.1 hb
    · obtain heq | ⟨l, hl, hlo, hhi⟩ | ⟨hne, -⟩ := hwrite base (.inr rfl)
      · exact heq
      · have := (hinv.liveProper l hl).1.2.1
        omega
      · exact absurd rfl hne
    · have hb' := hinv.proper b hb
      obtain heq | ⟨l, hl, hlo, hhi⟩ | ⟨-, hgot⟩ := hwrite b.lo (.inl hb'.1)
      · exact heq
      · exact absurd (.inr ⟨b, hb, Nat.le_refl _, hb'.2.2⟩) (hinv.not_own hl (by omega) hhi)
      · exact absurd ((hinv.cover _).2 (.inl ⟨b, hb, Nat.le_refl _, hb'.2.2⟩)) hgot
  have hheader : ∀ l ∈ live, mem l.lo = h.mem l.lo := by
    intro l hl
    have hl' := (hinv.liveProper l hl).1
    obtain heq | ⟨t, ht, hlo, hhi⟩ | ⟨-, hgot⟩ := hwrite l.lo (.inl hl'.1)
    · exact heq
    · -- the header of a held block is not behind the header of another
      exfalso
      have hne : t ≠ l := by
        rintro rfl
        omega
      have hd := hinv.liveDisjoint.forall ht hl hne
      have := hl'.2.2
      obtain hd | hd := hd <;> omega
    · exact absurd ((hinv.cover _).2 (.inr ⟨l, hl, Nat.le_refl _, hl'.2.2⟩)) hgot
  refine { hinv with links := hinv.links.congr hnode, liveProper := fun l hl => ?_ }
  refine ⟨(hinv.liveProper l hl).1, ?_⟩
  show l.hi = l.lo + 16 * (mem l.lo).size
  rw [hheader l hl]
  exact (hinv.liveProper l hl).2

/-- From a block of the list one comes to a block of the list. -/
theorem Inv.nth_mem {h : Heap} {live blocks : List Span} (hinv : Inv base h live blocks) (n : Nat) :
    nth h n ∈ (baseSpan base :: blocks).map Span.lo := by
  induction n with
  | zero => exact hinv.freep
  | succ n ih =>
    obtain ⟨xs, hchain, -, hmem, -⟩ := links_from hinv.links ih
    rw [nth_succ, ← hmem]
    cases xs with
    | nil =>
      rw [hchain.1]
      exact List.mem_singleton.2 rfl
    | cons x xs =>
      rw [hchain.1]
      exact List.mem_cons_self ..

theorem Inv.fits_of_hasRoom {h : Heap} {live blocks : List Span} {units : Nat}
    (hinv : Inv base h live blocks) (hpos : 0 < units) (hroom : HasRoom units h) :
    ∃ b ∈ blocks, units ≤ (h.mem b.lo).size := by
  obtain ⟨n, hn⟩ := hroom
  obtain ⟨b, hb, hlo⟩ := List.mem_map.1 (hinv.nth_mem (n + 1))
  rw [← hlo] at hn
  obtain rfl | hb := List.mem_cons.1 hb
  · have hzero : (h.mem (baseSpan base).lo).size = 0 := hinv.size_base
    omega
  · exact ⟨b, hb, hn⟩

/-- The list that `malloc` starts with. -/
theorem Ready.initialised (hready : Ready base w) (hbase : 0 < base) :
    ∃ blocks, Inv base (initialise base w.heap) w.live blocks := by
  obtain ⟨hfreep, hlive, hgot⟩ | ⟨blocks, hinv⟩ := hready
  · rw [hlive]
    exact ⟨[], initialise_inv hfreep hgot⟩
  · refine ⟨blocks, ?_⟩
    rw [hinv.initialise hbase]
    exact hinv

/-- A call of `malloc` that meets the condition. -/
theorem Ready.malloc (hready : Ready base w) (hbase : 0 < base) {nbytes : Nat}
    (htrusted : Trusted base answers w (.malloc nbytes)) (hmeets : Meets base answers w (.malloc nbytes)) :
    ∃ N h', (∀ t ∈ w.live, ∀ z, t.lo ≤ z → z < t.hi → h'.mem z = w.heap.mem z) ∧
      ((∃ blocks', Inv base h' w.live blocks' ∧
        ∀ fuel, N ≤ fuel → Umalloc.malloc base answers fuel nbytes w.heap = (.null, h')) ∨
      ∃ a blocks', Inv base h' (⟨a, a + 16 * nunits nbytes⟩ :: w.live) blocks' ∧
        ∀ fuel, N ≤ fuel → Umalloc.malloc base answers fuel nbytes w.heap = (.at (a + 16), h')) := by
  obtain ⟨blocks, hinv⟩ := hready.initialised hbase
  have hlog := (initialise_log base w.heap).1
  have hcall : call answers (nunits nbytes) (initialise base w.heap) =
      call answers (nunits nbytes) w.heap := by
    rw [call, call, hlog]
  have hserved : Served base answers nbytes (initialise base w.heap) w.live := by
    refine hinv.malloc hbase ?_
    rw [hlog, hcall]
    exact hmeets.imp (hinv.fits_of_hasRoom (Nat.succ_pos _)) fun h => ⟨h.1, htrusted, h.2⟩
  have hagain : ∀ fuel, Umalloc.malloc base answers fuel nbytes (initialise base w.heap) =
      Umalloc.malloc base answers fuel nbytes w.heap := by
    intro fuel
    simp only [Umalloc.malloc, hinv.initialise hbase]
  obtain ⟨N, h', hframe, hresult⟩ := hserved
  simp only [hagain] at hresult
  refine ⟨N, h', fun t ht z hlo hhi => ?_, hresult⟩
  rw [hframe t ht z hlo hhi]
  obtain ⟨hfreep, hlive, -⟩ | ⟨blocks', hinv'⟩ := hready
  · rw [hlive] at ht
    cases ht
  · rw [hinv'.initialise hbase]

/-- A call of `free`. -/
theorem Ready.free (hready : Ready base w) {l : Span} (hl : l ∈ w.live)
    (hmeets : Meets base answers w (.free l)) :
    ∃ N h' blocks', Inv base h' (w.live.erase l) blocks' ∧
      (∀ t ∈ w.live.erase l, ∀ z, t.lo ≤ z → z < t.hi → h'.mem z = w.heap.mem z) ∧
      ∀ fuel, N ≤ fuel → Umalloc.free fuel w.heap (l.lo + 16) = some h' := by
  obtain ⟨-, hlive, -⟩ | ⟨blocks, hinv⟩ := hready
  · rw [hlive] at hl
    cases hl
  · have hinv' := hinv.perm (List.perm_cons_erase hl)
    obtain ⟨h', blocks', hrun, hafter, -, hframe⟩ := hinv'.free hmeets
    refine ⟨blocks.length + 1, h', blocks', hafter, fun t ht z hlo hhi => hframe z ?_, hrun⟩
    have hd := (List.pairwise_cons.1 hinv'.liveDisjoint).1 t ht
    rintro (heq | hc)
    · exact hinv'.not_own (List.mem_cons_of_mem _ ht) hlo hhi (.inl heq)
    · obtain hc | hc := covers_cons.1 hc
      · obtain hd | hd := hd <;> omega
      · exact hinv'.not_own (List.mem_cons_of_mem _ ht) hlo hhi (.inr hc)

/-- What a call of `malloc` that has returned a pointer has done. -/
theorem Ready.malloc_at (hready : Ready base w) (hbase : 0 < base) {nbytes fuel p : Nat} {h : Heap}
    (htrusted : Trusted base answers w (.malloc nbytes)) (hmeets : Meets base answers w (.malloc nbytes))
    (hrun : Umalloc.malloc base answers fuel nbytes w.heap = (.at p, h)) :
    ∃ a blocks', p = a + 16 ∧ Inv base h (⟨a, a + 16 * nunits nbytes⟩ :: w.live) blocks' ∧
      ∀ t ∈ w.live, ∀ z, t.lo ≤ z → z < t.hi → h.mem z = w.heap.mem z := by
  obtain ⟨N, h', hframe, ⟨blocks', -, hresult⟩ | ⟨a, blocks', hinv, hresult⟩⟩ :=
    hready.malloc hbase htrusted hmeets
  all_goals
    have heq := @malloc_unique _ fuel _ _ _ N (by rw [hrun]; rintro ⟨⟩)
      (by rw [hresult N (Nat.le_refl N)]; rintro ⟨⟩)
    rw [hrun, hresult N (Nat.le_refl N)] at heq
    cases heq
  exact ⟨a, blocks', rfl, hinv, hframe⟩

/-- What a call of `malloc` that has returned null has done. -/
theorem Ready.malloc_null (hready : Ready base w) (hbase : 0 < base) {nbytes fuel : Nat} {h : Heap}
    (htrusted : Trusted base answers w (.malloc nbytes)) (hmeets : Meets base answers w (.malloc nbytes))
    (hrun : Umalloc.malloc base answers fuel nbytes w.heap = (.null, h)) :
    ∃ blocks', Inv base h w.live blocks' ∧
      ∀ t ∈ w.live, ∀ z, t.lo ≤ z → z < t.hi → h.mem z = w.heap.mem z := by
  obtain ⟨N, h', hframe, ⟨blocks', hinv, hresult⟩ | ⟨a, blocks', -, hresult⟩⟩ :=
    hready.malloc hbase htrusted hmeets
  all_goals
    have heq := @malloc_unique _ fuel _ _ _ N (by rw [hrun]; rintro ⟨⟩)
      (by rw [hresult N (Nat.le_refl N)]; rintro ⟨⟩)
    rw [hrun, hresult N (Nat.le_refl N)] at heq
    cases heq
  exact ⟨blocks', hinv, hframe⟩

/-- **The step lemma.** -/
theorem Step.ready {op : Op} (hstep : Step base answers w op w') (hready : Ready base w) (hbase : 0 < base)
    (htrusted : Trusted base answers w op) (hmeets : Meets base answers w op) : Ready base w' := by
  cases hstep with
  | malloc hbytes hrun =>
    rename_i nbytes fuel p h
    obtain ⟨a, blocks', rfl, hinv, -⟩ := hready.malloc_at hbase htrusted hmeets hrun
    have hhi : a + 16 * nunits nbytes = a + 16 * (h.mem a).size :=
      (hinv.liveProper _ (List.mem_cons_self ..)).2
    rw [Nat.add_sub_cancel, ← hhi]
    exact .inr ⟨blocks', hinv⟩
  | null hbytes hrun =>
    obtain ⟨blocks', hinv, -⟩ := hready.malloc_null hbase htrusted hmeets hrun
    exact .inr ⟨blocks', hinv⟩
  | free hl hrun =>
    obtain ⟨N, h', blocks', hinv, -, hresult⟩ := hready.free hl hmeets
    obtain rfl := free_unique hrun (hresult N (Nat.le_refl N))
    exact .inr ⟨blocks', hinv⟩
  | write hwrite =>
    obtain ⟨hfreep, hlive, hgot⟩ | ⟨blocks, hinv⟩ := hready
    · exact .inl ⟨hfreep, hlive, hgot⟩
    · exact .inr ⟨blocks, hinv.write hwrite⟩

/-- **The run lemma.** -/
theorem Reach.ready (hreach : Reach base answers w) (hbase : 0 < base) : Ready base w := by
  induction hreach with
  | start mem =>
    refine .inl ⟨rfl, rfl, ?_⟩
    rintro x ⟨k, a, hmem, -⟩
    cases hmem
  | step _ htrusted hmeets hstep ih => exact hstep.ready ih hbase htrusted hmeets

end

/-- What the heap is to be, at any moment. -/
structure HeapOk (base : Nat) (answers : Nat → Option Nat) (w : World) : Prop where
  /-- There is no list yet, or it is a circle through `base`, in the order of addresses, of blocks that
  do not touch each other and are apart from those that the program holds. -/
  list : w.heap.freep = 0 ∧ w.live = [] ∨
    ∃ blocks, Links w.heap.mem base (baseSpan base :: blocks) base ∧
      w.heap.freep ∈ (baseSpan base :: blocks).map Span.lo ∧ Separated (baseSpan base :: blocks) ∧
      ∀ b ∈ blocks, ∀ l ∈ w.live, b.Disjoint l
  /-- What the program holds is aligned, in memory from `sbrk`, and in blocks apart from each other. -/
  live : w.live.Pairwise Span.Disjoint ∧
    ∀ l ∈ w.live, 16 ∣ l.lo ∧ ∀ x, l.lo ≤ x → x < l.hi → Got w.heap.log x
  malloc : ∀ nbytes, Trusted base answers w (.malloc nbytes) → Meets base answers w (.malloc nbytes) →
    -- it returns
    (∃ fuel, (Umalloc.malloc base answers fuel nbytes w.heap).1 ≠ .running) ∧
    -- a pointer is aligned, and has so many bytes of its own
    (∀ fuel p h, Umalloc.malloc base answers fuel nbytes w.heap = (.at p, h) →
      16 ∣ p ∧ ∃ hi, p + nbytes ≤ hi ∧ (∀ x, p ≤ x → x < hi → Got h.log x) ∧
        ∀ l ∈ w.live, (⟨p, hi⟩ : Span).Disjoint l) ∧
    -- nothing that is held is written to
    ∀ fuel h, (Umalloc.malloc base answers fuel nbytes w.heap = (.null, h) ∨
        ∃ p, Umalloc.malloc base answers fuel nbytes w.heap = (.at p, h)) →
      ∀ l ∈ w.live, ∀ a, l.lo ≤ a → a < l.hi → h.mem a = w.heap.mem a
  free : ∀ l ∈ w.live, Meets base answers w (.free l) →
    (∃ fuel h, Umalloc.free fuel w.heap (l.lo + 16) = some h) ∧
    ∀ fuel h, Umalloc.free fuel w.heap (l.lo + 16) = some h →
      ∀ t ∈ w.live.erase l, ∀ a, t.lo ≤ a → a < t.hi → h.mem a = w.heap.mem a
  /-- When nothing is held, a request that fits into memory in a row is served from it. -/
  reuse : w.live = [] → ∀ nbytes lo,
    (∀ x, lo ≤ x → x < lo + 16 * nunits nbytes → Got w.heap.log x) →
    ∃ fuel p h, Umalloc.malloc base answers fuel nbytes w.heap = (.at p, h) ∧ h.log = w.heap.log

/-- **The user's heap**, after any run whose steps meet the condition. -/
theorem heap_run {base : Nat} {answers : Nat → Option Nat} {w : World} (hbase : 0 < base)
    (hreach : Reach base answers w) : HeapOk base answers w := by
  have hready := hreach.ready hbase
  refine ⟨?_, ?_, fun nbytes htrusted hmeets => ⟨?_, ?_, ?_⟩, fun l hl hmeets => ⟨?_, ?_⟩, ?_⟩
  · exact hready.imp (fun h => ⟨h.1, h.2.1⟩) fun ⟨blocks, hinv⟩ =>
      ⟨blocks, hinv.links, hinv.freep, hinv.separatedNodes, hinv.disjoint⟩
  · obtain ⟨-, hlive, -⟩ | ⟨blocks, hinv⟩ := hready
    · rw [hlive]
      exact ⟨List.Pairwise.nil, List.forall_mem_nil _⟩
    · refine ⟨hinv.liveDisjoint, fun l hl => ⟨(hinv.liveProper l hl).1.1, fun x hlo hhi => ?_⟩⟩
      exact (hinv.cover x).2 (.inr ⟨l, hl, hlo, hhi⟩)
  · obtain ⟨N, h', -, ⟨blocks', -, hresult⟩ | ⟨a, blocks', -, hresult⟩⟩ :=
      hready.malloc hbase htrusted hmeets
    all_goals
      refine ⟨N, ?_⟩
      rw [hresult N (Nat.le_refl N)]
      rintro ⟨⟩
  · intro fuel p h hrun
    obtain ⟨a, blocks', rfl, hinv, -⟩ := hready.malloc_at hbase htrusted hmeets hrun
    have halign := (hinv.liveProper _ (List.mem_cons_self ..)).1.1
    refine ⟨Nat.dvd_add halign (Nat.dvd_refl 16), a + 16 * nunits nbytes, ?_, ?_, ?_⟩
    · rw [nunits]
      omega
    · intro x hlo hhi
      exact (hinv.cover x).2 (.inr (covers_cons.2 (.inl ⟨show a ≤ x by omega, hhi⟩)))
    · intro l hl
      obtain hd | hd := (List.pairwise_cons.1 hinv.liveDisjoint).1 l hl
      · exact .inl hd
      · exact .inr (Nat.le_trans hd (Nat.le_add_right ..))
  · rintro fuel h (hrun | ⟨p, hrun⟩)
    · obtain ⟨-, -, hframe⟩ := hready.malloc_null hbase htrusted hmeets hrun
      exact hframe
    · obtain ⟨-, -, -, -, hframe⟩ := hready.malloc_at hbase htrusted hmeets hrun
      exact hframe
  · obtain ⟨N, h', -, -, -, hresult⟩ := hready.free hl hmeets
    exact ⟨N, h', hresult N (Nat.le_refl N)⟩
  · intro fuel h hrun
    obtain ⟨N, h', -, -, hframe, hresult⟩ := hready.free hl hmeets
    obtain rfl := free_unique hrun (hresult N (Nat.le_refl N))
    exact hframe
  · intro hlive nbytes lo hgot
    have hpos : 0 < nunits nbytes := Nat.succ_pos _
    obtain ⟨-, -, hnone⟩ | ⟨blocks, hinv⟩ := hready
    · exact absurd (hgot lo (Nat.le_refl lo) (by omega)) (hnone lo)
    · rw [hlive] at hinv
      -- memory in a row is in one block when nothing is held
      obtain ⟨b, hb, hlo, hhi⟩ := @Separated.interval _ hinv.separated lo (lo + 16 * nunits nbytes)
        (by omega) fun x hlo hhi => ((hinv.cover x).1 (hgot x hlo hhi)).resolve_right covers_nil
      have hsize := hinv.links.2 b (List.mem_cons_of_mem _ hb)
      obtain ⟨a, h', -, -, hlog, -, hrun⟩ := @Inv.mallocFrom_fits _ _ answers _ _ _ hinv hpos
        ⟨b, hb, by omega⟩
      refine ⟨blocks.length + 1, a + 16, h', ?_, hlog⟩
      simp only [Umalloc.malloc, hinv.initialise hbase]
      exact hrun _ (Nat.le_refl _)

/-- The heap after `malloc(100)`: the end of the memory from `sbrk` is held. -/
theorem heap_run_hundred : HeapOk 16 (fun _ => some 32)
    ⟨(malloc 16 (fun _ => some 32) 4 100 fresh).2,
      [⟨65456 - 16, 65456 - 16 + 16 * ((malloc 16 (fun _ => some 32) 4 100 fresh).2.mem (65456 - 16)).size⟩]⟩ := by
  have hrun : malloc 16 (fun _ => some 32) 4 100 fresh =
      (.at 65456, (malloc 16 (fun _ => some 32) 4 100 fresh).2) :=
    Prod.ext (by decide +kernel) rfl
  refine heap_run (by decide) (@Reach.step _ _ _ _ (.malloc 100) (.start fun _ => ⟨0, 0⟩) ?_
    (.inr ⟨by decide, ?_⟩) (.malloc (by decide) hrun))
  · rintro a ha
    cases ha
    refine ⟨by decide, by decide, ?_⟩
    rintro x ⟨k, a, hmem, -⟩
    cases hmem
  · intro lo hi hgot
    have hcall : ((start fun _ => ⟨0, 0⟩).heap.log ++
        [call (fun _ => some 32) (nunits 100) (start fun _ => ⟨0, 0⟩).heap]) = [(65536, some 32)] := by
      decide +kernel
    rw [hcall] at hgot
    have hbound : ∀ x, Got [(65536, some 32)] x → x < 65568 := by
      rintro x ⟨k, a, hmem, -, hlt⟩
      obtain ⟨rfl, heq⟩ := Prod.mk.inj (List.mem_singleton.1 hmem)
      obtain rfl := Option.some.inj heq
      omega
    by_contra hlong
    have := hbound _ (hgot (lo + 65568) (by omega) (by omega)).1
    omega

/-- In a fresh heap, `malloc(4294967295)` asks `sbrk` for 16 bytes, and returns the end of them. -/
theorem malloc_outside : Fresh 16 fresh.log (some 32) ∧
    (malloc 16 (fun _ => some 32) 4 (2 ^ 32 - 1) fresh).1 = .at 48 ∧
    ¬ Got (malloc 16 (fun _ => some 32) 4 (2 ^ 32 - 1) fresh).2.log 48 := by
  have hlog : (malloc 16 (fun _ => some 32) 4 (2 ^ 32 - 1) fresh).2.log = [(16, some 32)] := by
    decide +kernel
  refine ⟨?_, by decide +kernel, ?_⟩
  · rintro a ha
    cases ha
    refine ⟨by decide, by decide, ?_⟩
    rintro x ⟨k, a, hmem, -⟩
    cases hmem
  · rw [hlog]
    rintro ⟨k, a, hmem, -, hlt⟩
    obtain ⟨rfl, heq⟩ := Prod.mk.inj (List.mem_singleton.1 hmem)
    obtain rfl := Option.some.inj heq
    omega

end Umalloc

end Xv6pp
