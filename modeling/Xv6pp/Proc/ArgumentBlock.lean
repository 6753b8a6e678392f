import Xv6pp.Proc.ProcessMachine
import Xv6pp.Vm.Resizing
import Xv6pp.Vm.UserCopy

/-!
# The argument block of `exec`

`exec` pushes the argument strings on a fresh stack page, each aligned to 16 bytes, and below them
the array of their addresses with a null pointer at its end.  The stack pointer is an unsigned number
that is moved down first and compared with the end of the page afterwards.

The strings and the array are blocks that are placed one below the other (`Placed`).  Since a block
is not larger than a page and the stack page is not the first one, no subtraction wraps, and a block
fits exactly when the sum of the rounded sizes does (`blockBytes`).  What the user then sees is
`ArgBlock`; `exec_argument_block` says so for `exec` of a process in any state of the kernel.
-/

set_option autoImplicit false

namespace Xv6pp

open Prog VirtualMemory Radix Process

/-! ## Blocks on the stack -/

/-- The bytes that `n` bytes take on a stack that is aligned to 16. -/
def up16 (n : Nat) : Nat := (n + 15) / 16 * 16

/-- The bytes that the argument strings take. -/
def stringBytes (argv : List (List UInt8)) : Nat :=
  (argv.map fun arg => up16 (arg.length + 1)).sum

/-- The bytes that the argument block takes: the strings, and the array of their addresses. -/
def blockBytes (argv : List (List UInt8)) : Nat :=
  stringBytes argv + up16 ((argv.length + 1) * 8)

/-- The subtractions from the stack pointer, as the pointer and what is subtracted, for blocks of the
sizes `ns`, up to the first block that lies below `stackbase`. -/
def subtractions (stackbase : Nat) : Nat → List Nat → List (Nat × Nat)
  | _, [] => []
  | sp, n :: ns =>
    (sp, n) :: if stackDown sp n < stackbase then [] else subtractions stackbase (stackDown sp n) ns

/-- The sizes of the blocks that `exec` pushes. -/
def blockSizes (argv : List (List UInt8)) : List Nat :=
  argv.map (fun arg => arg.length + 1) ++ [(argv.length + 1) * 8]

/-- The bytes `l` lie at the address `a`. -/
def Holds (m : Nat → Option UInt8) (a : Nat) (l : List UInt8) : Prop :=
  ∀ j < l.length, m (a + j) = l[j]?

/-- The strings lie one below the other, from `sp` down to `last`, at the addresses `ptrs`. -/
inductive Placed (m : Nat → Option UInt8) : Nat → List (List UInt8) → List Nat → Nat → Prop
  | nil (sp : Nat) : Placed m sp [] [] sp
  | cons {p sp last : Nat} {arg : List UInt8} {argv : List (List UInt8)} {ptrs : List Nat}
      (hp : p + up16 (arg.length + 1) = sp) (hm : Holds m p (arg ++ [0]))
      (h : Placed m p argv ptrs last) : Placed m sp (arg :: argv) (p :: ptrs) last

/-- What the user finds when `exec` has succeeded with the size `sz` and the stack pointer `sp`. -/
structure ArgBlock (m : Nat → Option UInt8) (sz : Nat) (argv : List (List UInt8)) (sp : Nat) : Prop where
  size : (USERSTACK + 1) * PGSIZE ≤ sz
  aligned : sp % 16 = 0
  above : sz - USERSTACK * PGSIZE ≤ sp
  /-- There is an array of pointers at `sp`, and each of them points to its string; the array lies
  below the strings and each string below those before it. -/
  block : ∃ ptrs : List Nat, ptrs.length = argv.length ∧
    Holds m sp ((ptrs ++ [0]).flatMap (leBytes 8)) ∧
    (∀ (i p : Nat) (arg : List UInt8), ptrs[i]? = some p → argv[i]? = some arg →
      p % 16 = 0 ∧ sp + (argv.length + 1) * 8 ≤ p ∧ p + arg.length + 1 ≤ sz ∧
        Holds m p (arg ++ [0])) ∧
    ∀ (i j p q : Nat) (arg : List UInt8), i < j → ptrs[i]? = some p → ptrs[j]? = some q → argv[j]? = some arg →
      q + arg.length + 1 ≤ p
  /-- The page below the stack. -/
  guard : ∀ a, sz - (USERSTACK + 1) * PGSIZE ≤ a → a < sz - USERSTACK * PGSIZE → m a = none

section
variable {m m' : Nat → Option UInt8} {sp last n base : Nat} {argv : List (List UInt8)}
  {ptrs : List Nat}

theorem le_up16 (n : Nat) : n ≤ up16 n := by
  rw [up16]
  omega

/-- Moving an aligned stack pointer down does not wrap when there is room below it. -/
theorem stackDown_eq (h16 : sp % 16 = 0) (hn : n ≤ sp) (hsp : sp < 2 ^ 64) :
    stackDown sp n + up16 n = sp := by
  have hmod : (sp + 2 ^ 64 - n) % 2 ^ 64 = sp - n := by
    rw [show sp + 2 ^ 64 - n = sp - n + 2 ^ 64 by omega, Nat.add_mod_right,
      Nat.mod_eq_of_lt (by omega)]
  rw [stackDown, hmod, up16]
  omega

/-- **No subtraction wraps** while the blocks are not larger than what lies below the stack. -/
theorem subtractions_le {ns : List Nat} (hns : ∀ n ∈ ns, n ≤ base) (hsp : base ≤ sp) :
    ∀ q ∈ subtractions base sp ns, q.2 ≤ q.1 := by
  induction ns generalizing sp with
  | nil => exact fun q hq => absurd hq List.not_mem_nil
  | cons n ns ih =>
    intro q hq
    rw [subtractions, List.mem_cons] at hq
    rcases hq with rfl | hq
    · exact (hns n List.mem_cons_self).trans hsp
    · split at hq
      · exact absurd hq List.not_mem_nil
      · next hge =>
        exact ih (fun n hn => hns n (List.mem_cons_of_mem _ hn)) (Nat.not_lt.1 hge) q hq

theorem Holds.congr {a : Nat} {l : List UInt8} (h : Holds m a l)
    (hm : ∀ x, a ≤ x → x < a + l.length → m' x = m x) : Holds m' a l := fun j hj => by
  rw [hm _ (by omega) (by omega), h j hj]

theorem stringBytes_cons (arg : List UInt8) (argv : List (List UInt8)) :
    stringBytes (arg :: argv) = up16 (arg.length + 1) + stringBytes argv := by
  rw [stringBytes, List.map_cons, List.sum_cons, stringBytes]

/-- The strings take the sum of their rounded sizes. -/
theorem Placed.total (h : Placed m sp argv ptrs last) : last + stringBytes argv = sp := by
  induction h with
  | nil sp => rfl
  | cons hp _ _ ih =>
    rw [stringBytes_cons]
    omega

theorem Placed.length_eq (h : Placed m sp argv ptrs last) : ptrs.length = argv.length := by
  induction h with
  | nil sp => rfl
  | cons _ _ _ ih => rw [List.length_cons, List.length_cons, ih]

theorem Placed.last_aligned (h : Placed m sp argv ptrs last) (h16 : sp % 16 = 0) :
    last % 16 = 0 := by
  induction h with
  | nil sp => exact h16
  | cons hp _ _ ih =>
    refine ih ?_
    rw [up16] at hp
    omega

/-- The strings stay where they are when the memory below and above them changes. -/
theorem Placed.congr (h : Placed m sp argv ptrs last)
    (hm : ∀ a, last ≤ a → a < sp → m' a = m a) : Placed m' sp argv ptrs last := by
  induction h with
  | nil sp => exact .nil sp
  | @cons p sp last arg argv ptrs hp hholds h ih =>
    have hle := le_up16 (arg.length + 1)
    have htotal := h.total
    refine .cons hp (hholds.congr fun x hx hlt => hm x (by omega) ?_)
      (ih fun a ha hlt => hm a ha (by omega))
    rw [List.length_append, List.length_singleton] at hlt
    omega

/-- Each string, and where it lies. -/
theorem Placed.get {i p : Nat} {arg : List UInt8} (h : Placed m sp argv ptrs last)
    (h16 : sp % 16 = 0) (hp : ptrs[i]? = some p) (harg : argv[i]? = some arg) :
    p % 16 = 0 ∧ last ≤ p ∧ p + arg.length + 1 ≤ sp ∧ Holds m p (arg ++ [0]) := by
  induction h generalizing i with
  | nil sp => exact absurd hp (by rw [List.getElem?_nil]; rintro ⟨⟩)
  | @cons q sp last arg' argv ptrs hq hholds h ih =>
    have hle := le_up16 (arg'.length + 1)
    have htotal := h.total
    have hq16 : q % 16 = 0 := by
      rw [up16] at hq
      omega
    cases i with
    | zero =>
      rw [List.getElem?_cons_zero, Option.some_inj] at hp harg
      subst hp harg
      exact ⟨hq16, by omega, by omega, hholds⟩
    | succ i =>
      rw [List.getElem?_cons_succ] at hp harg
      obtain ⟨hp16, hlast, htop, hp'⟩ := ih hq16 hp harg
      exact ⟨hp16, hlast, by omega, hp'⟩

/-- A string lies below those before it. -/
theorem Placed.under {i j p q : Nat} {arg : List UInt8} (h : Placed m sp argv ptrs last)
    (h16 : sp % 16 = 0) (hij : i < j) (hp : ptrs[i]? = some p) (hq : ptrs[j]? = some q)
    (harg : argv[j]? = some arg) : q + arg.length + 1 ≤ p := by
  induction h generalizing i j with
  | nil sp => exact absurd hp (by rw [List.getElem?_nil]; rintro ⟨⟩)
  | @cons p' sp last arg' argv ptrs hp' hholds h ih =>
    have hp16 : p' % 16 = 0 := by
      rw [up16] at hp'
      omega
    obtain ⟨j, rfl⟩ := Nat.exists_eq_succ_of_ne_zero (Nat.ne_of_gt (Nat.zero_lt_of_lt hij))
    rw [Nat.succ_eq_add_one, List.getElem?_cons_succ] at hq harg
    cases i with
    | zero =>
      rw [List.getElem?_cons_zero, Option.some_inj] at hp
      subst hp
      exact (h.get hp16 hq harg).2.2.1
    | succ i =>
      rw [List.getElem?_cons_succ] at hp
      exact ih hp16 (Nat.lt_of_succ_lt_succ hij) hp hq harg

end

/-! ## The words of the stack -/

namespace VirtualMemory

section
variable [KernelImage] {s s' : Memory} {r n n' k : Nat} {T T' : Multiset Nat} {f f' : Nat → Nat}
  {E : Panic → Prop}

omit [KernelImage] in
theorem pgRoundDown_div (a : Nat) : pgRoundDown a / PGSIZE = a / PGSIZE := by
  rw [pgRoundDown, Nat.mul_div_cancel _ (by decide)]

/-- Words that do not give the user access to what lies above the user memory. -/
def Hidden (f : Nat → Nat) : Prop :=
  ∀ v, trapPage ≤ v → v < sv39.width ^ 3 → has (f v) PTE_U = false

/-- The page of the user at an address, from the words. -/
theorem Maps.userPage_word {va pa flags : Nat} (h : Maps s r n T f) (hidden : Hidden f)
    (hpage : userPage s r va = some (pa, flags)) :
    va / PGSIZE < n ∧ pa = pte2pa (f (va / PGSIZE)) ∧ has (f (va / PGSIZE)) PTE_U := by
  obtain ⟨htr, hU⟩ := userPage_eq_some.1 hpage
  have hva : pgRoundDown va < MAXVA := by
    by_contra hge
    rw [translation_none fun hc => hge hc.2] at htr
    exact absurd htr (by rintro ⟨⟩)
  rw [h.table.translation_eq (pgRoundDown_aligned va) hva, pgRoundDown_div, entry_eq_some] at htr
  obtain ⟨hV, hpa, rfl⟩ := htr
  rw [has_pteFlags _ (by decide)] at hU
  refine ⟨?_, hpa.symm, hU⟩
  by_contra hge
  rcases Nat.lt_or_ge (va / PGSIZE) trapPage with hlt | hge'
  · exact absurd ((h.free _ (Nat.not_lt.1 hge) hlt).symm.trans hV) (by decide)
  · have hlt := page_lt hva
    rw [pgRoundDown_div] at hlt
    exact absurd ((hidden _ hge' hlt).symm.trans hU) (by decide)

/-- The user's pages of an address space are apart from each other and from its table. -/
theorem Maps.userTable (h : Maps s r n T f) (hidden : Hidden f) : UserTable s r T := by
  have hnodup := Multiset.nodup_add.1 h.nodup
  have hmem : ∀ {va pa flags}, userPage s r va = some (pa, flags) → pa ∈ mapped f 0 n := by
    intro va pa flags hpage
    obtain ⟨hv, rfl, -⟩ := h.userPage_word hidden hpage
    have hin := mem_mapped (f := f) (v := 0) hv
    rwa [Nat.zero_add] at hin
  refine ⟨⟨⟨f, h.table⟩, h.owned.of_le (Multiset.le_add_right _ _)⟩, ?_, ?_, ?_⟩
  · exact fun va pa flags hpage hT => Multiset.disjoint_left.1 hnodup.2.2 hT (hmem hpage)
  · intro va va' pa flags flags' hpage hpage'
    obtain ⟨hv, rfl, -⟩ := h.userPage_word hidden hpage
    obtain ⟨hv', heq, -⟩ := h.userPage_word hidden hpage'
    have hinj := Multiset.inj_on_of_nodup_map hnodup.2.1 _ (Multiset.mem_range.2 hv) _
      (Multiset.mem_range.2 hv')
    rw [Nat.zero_add, Nat.zero_add] at hinj
    rw [pgRoundDown, pgRoundDown, hinj heq]
  · intro va flags hpage
    have hok := h.owned.pageOk (Multiset.mem_add.2 (.inr (hmem hpage)))
    exact absurd hok.pos (Nat.lt_irrefl 0)

/-- The addresses of a page that is mapped writable for the user. -/
theorem Maps.writable {va : Nat} (h : Maps s r n T f) (hv : va / PGSIZE < n)
    (hU : has (f (va / PGSIZE)) PTE_U) (hW : has (f (va / PGSIZE)) PTE_W) : Writable s r va := by
  obtain ⟨-, -, hva, -⟩ := page_mul (lt_of_lt_of_le hv h.le)
  have hV := (h.mapping _ hv).1
  refine ⟨pte2pa (f (va / PGSIZE)), pteFlags (f (va / PGSIZE)), userPage_eq_some.2 ⟨?_, ?_⟩, ?_⟩
  · rw [h.table.translation_eq (pgRoundDown_aligned va) hva, pgRoundDown_div, entry, if_pos hV]
  · rwa [has_pteFlags _ (by decide)]
  · rwa [has_pteFlags _ (by decide)]

/-- The pages that were kept are mapped as they were. -/
theorem Kept.userPage_eq {a : Nat} (h : Maps s r n T f) (h' : Maps s' r n' T' f')
    (hkept : Kept k s n T f s' n' T' f') (ha : a < k * PGSIZE) :
    userPage s' r a = userPage s r a := by
  have hround : pgRoundDown a < k * PGSIZE := lt_of_le_of_lt (pgRoundDown_le a) ha
  rw [userPage, userPage, hkept.translation_eq h h' (.inl hround)]

/-- What the user sees of the pages that were kept. -/
theorem Kept.userByte_eq {a : Nat} (h : Maps s r n T f) (h' : Maps s' r n' T' f')
    (hkept : Kept k s n T f s' n' T' f') (hk : k ≤ n) (ha : a < k * PGSIZE) :
    userByte s' r a = userByte s r a := by
  have hv : a / PGSIZE < k := Nat.div_lt_of_lt_mul (by rw [Nat.mul_comm]; exact ha)
  obtain ⟨-, -, hva, -⟩ := page_mul (lt_of_lt_of_le (lt_of_lt_of_le hv hk) h.le)
  rw [userByte, userByte, hkept.userPage_eq h h' ha, userPage]
  rw [h.table.translation_eq (pgRoundDown_aligned a) hva, pgRoundDown_div, entry,
    if_pos (h.mapping _ (lt_of_lt_of_le hv hk)).1, Option.filter_some]
  split
  · rw [Option.map_some, Option.map_some]
    have hmem := mem_mapped (f := f) (v := 0) hv
    rw [Nat.zero_add] at hmem
    rw [hkept.data _ hmem]
  · rfl

/-- **`clear`** on an address space: the word loses the user's access, everything else stays. -/
theorem Maps.wp_clear (h : Maps s r n T f) (hk : k < n) (hl : Leaf (f k)) :
    wp (clear r (k * PGSIZE)) E (fun _ s' =>
      Maps s' r n T (Function.update f k (cleared (f k))) ∧
      Kept k s n T f s' n T (Function.update f k (cleared (f k)))) s := by
  obtain ⟨-, -, hva, hdiv⟩ := page_mul (lt_of_lt_of_le hk h.le)
  have hle := h.le
  have hc := VirtualMemory.wp_clear (E := E) (k * PGSIZE) h.table
    (h.owned.of_le (Multiset.le_add_right _ _)) hva (by rw [hdiv]; exact hl)
  rw [hdiv] at hc
  refine wp_imp hc ?_
  rintro _ s' ⟨htab', hmoves⟩
  have hsame : mapped (Function.update f k (cleared (f k))) 0 n = mapped f 0 n := by
    refine Multiset.map_congr rfl fun i _ => ?_
    rw [Nat.zero_add, Function.update_apply]
    split
    · next he => rw [he, pte2pa_cleared hl.lt]
    · rfl
  have hmoves' : Moves s (T + mapped f 0 n) s'
      (T + mapped (Function.update f k (cleared (f k))) 0 n) := by
    rw [hsame]
    exact hmoves.add _
  refine ⟨⟨hle, htab', h.owned.moves hmoves', fun v hv => ?_, fun v hv hlt => ?_⟩, hmoves',
    fun v hv => ?_, fun q hq => ?_⟩
  · rw [Function.update_apply]
    split
    · exact hl.cleared.mapping
    · exact h.mapping v hv
  · rw [Function.update_of_ne (by omega)]
    exact h.free v hv hlt
  · rw [Function.update_of_ne (by omega)]
  · refine hmoves.mem_eq h.owned.nodup ?_
    rw [mapped_split f hk.le]
    exact Multiset.mem_add.2 (.inl hq)

end

end VirtualMemory

/-! ## Pushing the strings -/

section
variable [KernelImage] {E : Panic → Prop} {s : Memory} {r base sp : Nat} {T : Multiset Nat}

/-- What `copyout` does on addresses that the user may write. -/
theorem wp_copyout_writable {src : List UInt8} (h : UserTable s r T)
    (hw : ∀ a, sp ≤ a → a < sp + src.length → Writable s r a) :
    wp (copyout r sp src) E (fun res s' => res = 0 ∧ UserTable s' r T ∧ Stored s r sp src s') s := by
  refine wp_imp (h.wp_copyoutFrom (Nat.le_refl _)) ?_
  rintro res s' ⟨htable, k, hk, hstored, -, hres⟩
  rcases hres with ⟨rfl, rfl⟩ | ⟨-, hlt, hnw⟩
  · rw [List.take_length] at hstored
    exact ⟨rfl, htable, hstored⟩
  · exact absurd (hw _ (by omega) (by omega)) hnw

omit [KernelImage] in
/-- Bytes that have been stored are held. -/
theorem holds_of_stored {s' : Memory} {l : List UInt8} (h : Stored s r sp l s') :
    Holds (userByte s' r) sp l := fun j hj => by
  rw [h.bytes, if_pos (by omega), Nat.add_sub_cancel_left]

/-- **Pushing the strings**: they are placed below the stack pointer, or they do not fit. -/
theorem wp_pushArgs_placed {top : Nat} {argv : List (List UInt8)} {ustack : List Nat}
    (h : UserTable s r T) (hw : ∀ a, base ≤ a → a < top → Writable s r a) (hbase : PGSIZE ≤ base)
    (hsp : base ≤ sp) (htop : sp ≤ top) (hlt : top < 2 ^ 64) (h16 : sp % 16 = 0)
    (hargc : ustack.length + argv.length < MAXARG) (hshort : ∀ arg ∈ argv, arg.length < PGSIZE) :
    wp (pushArgs r base argv sp ustack) E (fun res s' =>
      UserTable s' r T ∧ translation s' r = translation s r ∧
      (res = none ∧ sp < base + stringBytes argv ∨ ∃ ptrs last, res = some (last, ustack ++ ptrs) ∧
        base ≤ last ∧ Placed (userByte s' r) sp argv ptrs last ∧
        ∀ a, a < last ∨ sp ≤ a → userByte s' r a = userByte s r a)) s := by
  induction argv generalizing sp ustack s with
  | nil =>
    refine ⟨h, rfl, .inr ⟨[], sp, ?_, hsp, .nil sp, fun _ _ => rfl⟩⟩
    rw [List.append_nil]
  | cons arg argv ih =>
    have harg := hshort arg List.mem_cons_self
    have hdown := stackDown_eq (n := arg.length + 1) h16 (by omega) (by omega)
    have hle := le_up16 (arg.length + 1)
    rw [List.length_cons] at hargc
    rw [pushArgs, if_neg (by omega)]
    dsimp only
    generalize stackDown sp (arg.length + 1) = p at hdown
    rw [stringBytes_cons]
    split
    · next hcmp => exact ⟨h, rfl, .inl ⟨rfl, by omega⟩⟩
    · next hcmp =>
      have hlen : (arg ++ [0]).length = arg.length + 1 := by
        rw [List.length_append, List.length_singleton]
      refine wp_seq (wp_copyout_writable h fun a hle' hlt' => hw a (by omega) (by omega)) ?_
      rintro res s₁ ⟨rfl, h₁, hstored⟩
      have h16' : p % 16 = 0 := by
        rw [up16] at hdown
        omega
      rw [if_neg (by decide)]
      refine wp_imp (ih h₁ (fun a ha hlt' => hstored.writable.2 (hw a ha hlt')) (by omega) (by omega)
        h16' ?_ fun arg' harg' => hshort arg' (List.mem_cons_of_mem _ harg')) ?_
      · rw [List.length_append, List.length_singleton]
        omega
      rintro res s₂ ⟨h₂, htr, hres⟩
      refine ⟨h₂, htr.trans hstored.pages, ?_⟩
      rcases hres with ⟨rfl, hfull⟩ | ⟨ptrs, last, rfl, hlast, hplaced, hframe⟩
      · exact .inl ⟨rfl, by omega⟩
      · have htotal := hplaced.total
        refine .inr ⟨p :: ptrs, last, ?_, hlast, .cons hdown ?_ hplaced, fun a ha => ?_⟩
        · rw [List.append_assoc, List.singleton_append]
        · exact (holds_of_stored hstored).congr fun a ha _ => hframe a (.inr ha)
        · rw [hframe a (by omega), hstored.bytes a, if_neg (by omega)]

/-- What `copyout` above `base` leaves of what the user finds below. -/
theorem wp_copyout_below {src : List UInt8} (h : UserTable s r T) (hsp : base ≤ sp) :
    wp (copyout r sp src) E (fun _ s' => UserTable s' r T ∧ translation s' r = translation s r ∧
      ∀ a < base, userByte s' r a = userByte s r a) s := by
  refine wp_imp (h.wp_copyoutFrom (Nat.le_refl _)) ?_
  rintro res s' ⟨htable, k, -, hstored, -, -⟩
  refine ⟨htable, hstored.pages, fun a ha => ?_⟩
  rw [hstored.bytes, if_neg (by omega)]

/-- Pushing the strings, however long they are, changes nothing below the stack. -/
theorem wp_pushArgs_below {argv : List (List UInt8)} {ustack : List Nat} (h : UserTable s r T) :
    wp (pushArgs r base argv sp ustack) E (fun _ s' => UserTable s' r T ∧
      translation s' r = translation s r ∧ ∀ a < base, userByte s' r a = userByte s r a) s := by
  induction argv generalizing sp ustack s with
  | nil => exact ⟨h, rfl, fun _ _ => rfl⟩
  | cons arg argv ih =>
    rw [pushArgs]
    split
    · exact ⟨h, rfl, fun _ _ => rfl⟩
    dsimp only
    split
    · exact ⟨h, rfl, fun _ _ => rfl⟩
    next hge =>
    refine wp_seq (wp_copyout_below h (Nat.not_lt.1 hge)) ?_
    rintro res s₁ ⟨h₁, htr₁, hsame₁⟩
    split
    · exact ⟨h₁, htr₁, hsame₁⟩
    refine wp_imp (ih h₁) ?_
    rintro _ s₂ ⟨h₂, htr₂, hsame₂⟩
    exact ⟨h₂, htr₂.trans htr₁, fun a ha => (hsame₂ a ha).trans (hsame₁ a ha)⟩

/-! ## Building the stack -/

/-- The word of a page that `alloc` has mapped for the stack. -/
theorem fresh_word {s' : Memory} {w : Nat} (hok : ∀ p ∈ s.freeList, PageOk p)
    (h : VirtualMemory.Fresh s s' (PTE_R ||| PTE_U ||| PTE_W) w) : UserLeaf true w ∧ has w PTE_W := by
  obtain ⟨p, hp, rfl, -⟩ := h
  refine ⟨(leaf_mkPte (hok p hp) (by decide) (by decide) fun _ => by decide).1, ?_⟩
  rw [mkPte, Nat.or_assoc, has_pa2pte_or p _ (by decide)]
  decide

omit [KernelImage] in
/-- The guard page and the stack page above an image of `k` pages. -/
theorem stack_pages {k : Nat} (hk : k ≤ trapPage) :
    let top := k * PGSIZE + (USERSTACK + 1) * PGSIZE
    top - USERSTACK * PGSIZE = (k + 1) * PGSIZE ∧ top - (USERSTACK + 1) * PGSIZE = k * PGSIZE ∧
      pgRoundUp top = (k + 2) * PGSIZE ∧ top ≠ 0 := by
  have htop : k * PGSIZE + (USERSTACK + 1) * PGSIZE = (k + 2) * PGSIZE := (Nat.add_mul _ _ _).symm
  refine ⟨?_, Nat.add_sub_cancel _ _, ?_, ?_⟩
  · rw [htop, show k + 2 = k + 1 + USERSTACK from rfl, Nat.add_mul (k + 1), Nat.add_sub_cancel]
  · rw [htop, pgRoundUp_eq, pages_mul]
    simp only [trapPage, TRAPFRAME, TRAMPOLINE, MAXVA, PGSIZE] at *
    omega
  · rw [htop]
    exact Nat.mul_ne_zero (Nat.succ_ne_zero _) (by decide)

omit [KernelImage] in
/-- The stack page. -/
theorem stack_page {k top : Nat} (hk : k ≤ trapPage) (htop : top = (k + 2) * PGSIZE) :
    top = (k + 1) * PGSIZE + USERSTACK * PGSIZE ∧ top % 16 = 0 ∧ top < 2 ^ 64 := by
  refine ⟨?_, ?_, ?_⟩
  · rw [htop, show k + 2 = k + 1 + USERSTACK from rfl, Nat.add_mul (k + 1)]
  · simp only [PGSIZE] at htop
    omega
  · simp only [trapPage, TRAPFRAME, TRAMPOLINE, MAXVA, PGSIZE] at htop hk
    omega

omit [KernelImage] in
theorem not_has_U_cleared {w : Nat} (hw : w < 2 ^ 64) : has (cleared w) PTE_U = false := by
  rw [PTE_U, Nat.one_shiftLeft, has_eq_testBit, cleared_testBit hw, decide_eq_true rfl,
    Bool.not_true, Bool.and_false]

/-- The address space of a process maps its pages, and hides what lies above them. -/
theorem UserSpace.maps {n tf : Nat} {u : Bool} {O : Multiset Nat} (h : UserSpace s r u n tf O)
    (ho : Owned s O) : ∃ P f, O = P + mapped f 0 n ∧ Maps s r n P f ∧ Hidden f := by
  obtain ⟨P, f, hO, hmaps, hhigh⟩ := Space.maps h ho
  refine ⟨P, f, hO, hmaps, fun v hv hlt => ?_⟩
  rw [hhigh v (hmaps.le.trans hv) hlt, high]
  split
  · exact (highHidden tf).1
  · split
    · exact (highHidden tf).2
    · rfl

/-- The memory `s'` is `s` with a guard page and a stack page above an image of `k` pages. -/
structure StackReady (s : Memory) (r k : Nat) (s' : Memory) : Prop where
  table : ∃ T, UserTable s' r T
  image : ∀ a < k * PGSIZE, userPage s' r a = userPage s r a ∧ userByte s' r a = userByte s r a
  guard : ∀ a, k * PGSIZE ≤ a → a < (k + 1) * PGSIZE → userPage s' r a = none
  stack : ∀ a, (k + 1) * PGSIZE ≤ a → a < (k + 2) * PGSIZE → Writable s' r a

/-- **The first part of building the stack**: there is no memory for it, or its two pages are ready. -/
theorem wp_stackReady {β : Type} {k tf : Nat} {O : Multiset Nat} {fail : VmM β} {rest : Nat → VmM β}
    {Q : β → Memory → Prop} (h : UserSpace s r true k tf O) (ho : Owned s O)
    (hfail : ∀ s', wp fail E Q s')
    (hrest : ∀ s', StackReady s r k s' →
      wp (rest (k * PGSIZE + (USERSTACK + 1) * PGSIZE)) E Q s') :
    wp (do
      let sz1 ← VirtualMemory.alloc r (k * PGSIZE) (k * PGSIZE + (USERSTACK + 1) * PGSIZE) PTE_W
      if sz1 = 0 then fail
      else do
        clear r (sz1 - (USERSTACK + 1) * PGSIZE)
        rest sz1) E Q s := by
  obtain ⟨P, f, rfl, hmaps, hhidden₀⟩ := UserSpace.maps h ho
  have hk := hmaps.le
  have hfree : ∀ p ∈ s.freeList, PageOk p := fun p hp => ho.ok p (by simp [hp])
  -- the image ends two pages higher: the guard page and the stack page
  obtain ⟨-, hguard, hround, hpos⟩ := stack_pages hk
  generalize htop : k * PGSIZE + (USERSTACK + 1) * PGSIZE = top at *
  have hle : k * PGSIZE ≤ top := htop ▸ Nat.le_add_right _ _
  refine wp_seq (hmaps.wp_alloc (pgRoundUp_mul hk).symm hle (by decide)) ?_
  rintro sz1 s₁ ⟨T₁, f₁, ⟨j, -, hj, rfl, hmaps₁, hkept₁, hfresh⟩ | ⟨rfl, -, -⟩⟩
  swap
  · exact hfail s₁
  obtain rfl : j = k + 2 :=
    Nat.eq_of_mul_eq_mul_right (by decide) (hj.trans hround)
  rw [if_neg hpos, hguard]
  obtain ⟨hleaf₁, -⟩ := fresh_word hfree (hfresh k (Nat.le_refl k) (by omega))
  obtain ⟨hleaf₁', hW⟩ := fresh_word hfree (hfresh (k + 1) (Nat.le_succ k) (by omega))
  refine wp_seq (hmaps₁.wp_clear (k := k) (by omega) hleaf₁.toLeaf) ?_
  rintro _ s₂ ⟨hmaps₂, hkept₂⟩
  have hkept := hkept₁.trans hkept₂
  have hhidden : Hidden (Function.update f₁ k (cleared (f₁ k))) := by
    intro v hv hlt
    rw [hkept.words v (.inr hv)]
    exact hhidden₀ v hv hlt
  refine hrest s₂ ⟨⟨_, hmaps₂.userTable hhidden⟩, fun a ha =>
    ⟨hkept.userPage_eq hmaps hmaps₂ ha, hkept.userByte_eq hmaps hmaps₂ le_rfl ha⟩,
    fun a hge hlt => ?_, fun a hge hlt => ?_⟩
  · by_contra hsome
    obtain ⟨⟨pa, flags⟩, hpage⟩ := Option.ne_none_iff_exists'.1 hsome
    obtain ⟨-, -, hU⟩ := hmaps₂.userPage_word hhidden hpage
    rw [Nat.div_eq_of_lt_le hge hlt, Function.update_self, not_has_U_cleared hleaf₁.lt] at hU
    exact absurd hU (by decide)
  · have hdiv : a / PGSIZE = k + 1 := Nat.div_eq_of_lt_le hge hlt
    have hne : k + 1 ≠ k := Nat.succ_ne_self k
    refine hmaps₂.writable (by rw [hdiv]; omega) ?_ ?_ <;> rw [hdiv, Function.update_of_ne hne]
    · exact hleaf₁'.user rfl
    · exact hW

/-- **Building the stack** leaves the pages of the image as they were, whatever the arguments are. -/
theorem wp_buildStack_kept {newsz tf : Nat} {O : Multiset Nat} {argv : List (List UInt8)}
    (h : UserSpace s r true (pages newsz) tf O) (ho : Owned s O) (hargc : argv.length < MAXARG) :
    wp (buildStack r newsz argv) E (fun res s' => res.1 ≠ none →
      res.2 = pgRoundUp newsz + (USERSTACK + 1) * PGSIZE ∧ ∀ a < pgRoundUp newsz,
        userPage s' r a = userPage s r a ∧ userByte s' r a = userByte s r a) s := by
  have hsz : newsz ≤ MAXVA := (le_of_pages_le h.1).trans (by decide)
  rw [buildStack, pgRoundUp_eq hsz]
  generalize pages newsz = k at *
  have hk : k ≤ trapPage := h.1
  obtain ⟨hbase, -, -, -⟩ := stack_pages hk
  refine wp_stackReady h ho (fun s₁ hne => absurd rfl hne) fun s₂ hready => ?_
  obtain ⟨T, htable⟩ := hready.table
  rw [hbase]
  -- what is stored from here on lies above the guard page
  have hsame : ∀ s', translation s' r = translation s₂ r →
      (∀ a < (k + 1) * PGSIZE, userByte s' r a = userByte s₂ r a) → ∀ a < k * PGSIZE,
        userPage s' r a = userPage s r a ∧ userByte s' r a = userByte s r a := by
    intro s' htr hbytes a ha
    have hup : a < (k + 1) * PGSIZE := ha.trans_le (Nat.mul_le_mul_right _ (Nat.le_succ k))
    obtain ⟨hpage, hbyte⟩ := hready.image a ha
    rw [userPage_congr htr]
    exact ⟨hpage, (hbytes a hup).trans hbyte⟩
  refine wp_seq (wp_pushArgs_below htable) ?_
  rintro (_ | ⟨sp, ustack⟩) s₃ ⟨h₃, htr₃, hbytes₃⟩
  · exact fun hne => absurd rfl hne
  dsimp only
  rw [if_neg (Nat.not_le.2 hargc)]
  split
  · exact fun hne => absurd rfl hne
  next hge =>
  refine wp_seq (wp_copyout_below h₃ (Nat.not_lt.1 hge)) ?_
  rintro res s₄ ⟨-, htr₄, hbytes₄⟩
  have hfinal := hsame s₄ (htr₄.trans htr₃) fun a ha => (hbytes₄ a ha).trans (hbytes₃ a ha)
  split
  · exact fun hne => absurd rfl hne
  · exact fun _ => ⟨rfl, hfinal⟩

/-- **The argument block.**  When building the stack succeeds the user finds the argument block at the
top of the image; when it fails there was no page, or the block does not fit. -/
theorem wp_buildStack_block {newsz tf : Nat} {O : Multiset Nat} {argv : List (List UInt8)}
    (h : UserSpace s r true (pages newsz) tf O) (ho : Owned s O) (hargc : argv.length < MAXARG)
    (hshort : ∀ arg ∈ argv, arg.length < PGSIZE) :
    wp (buildStack r newsz argv) E (fun res s' =>
      (∀ sp, res.1 = some sp → res.2 = pgRoundUp newsz + (USERSTACK + 1) * PGSIZE ∧
        ArgBlock (userByte s' r) res.2 argv sp ∧ sp + blockBytes argv = res.2) ∧
      (res.1 = none → res.2 = pgRoundUp newsz ∨ USERSTACK * PGSIZE < blockBytes argv)) s := by
  have hsz : newsz ≤ MAXVA := (le_of_pages_le h.1).trans (by decide)
  rw [buildStack, pgRoundUp_eq hsz]
  generalize pages newsz = k at *
  have hk : k ≤ trapPage := h.1
  obtain ⟨hbase, hguard, -, -⟩ := stack_pages hk
  have htop_eq : k * PGSIZE + (USERSTACK + 1) * PGSIZE = (k + 2) * PGSIZE :=
    (Nat.add_mul _ _ _).symm
  refine wp_stackReady h ho (fun s₁ => ⟨(by rintro _ ⟨⟩), fun _ => .inl rfl⟩) fun s₂ hready => ?_
  obtain ⟨T, htable⟩ := hready.table
  rw [hbase]
  generalize htop : k * PGSIZE + (USERSTACK + 1) * PGSIZE = sz1 at *
  obtain ⟨htop', h16, hlt64⟩ := stack_page hk htop_eq
  have hw : ∀ a, (k + 1) * PGSIZE ≤ a → a < sz1 → Writable s₂ r a := fun a hge hlt =>
    hready.stack a hge (htop_eq ▸ hlt)
  have hge : PGSIZE ≤ (k + 1) * PGSIZE := Nat.le_mul_of_pos_left _ (Nat.succ_pos k)
  refine wp_seq (wp_pushArgs_placed htable hw hge (htop' ▸ Nat.le_add_right _ _) le_rfl hlt64 h16
    (by rwa [List.length_nil, Nat.zero_add]) hshort) ?_
  rintro res s₃ ⟨h₃, htr₃, ⟨rfl, hfull⟩ | ⟨ptrs, last, rfl, hlast, hplaced, hframe⟩⟩
  · refine ⟨(by rintro _ ⟨⟩), fun _ => .inr ?_⟩
    rw [blockBytes]
    omega
  dsimp only
  rw [List.nil_append, if_neg (Nat.not_le.2 hargc)]
  have htotal := hplaced.total
  have hlen := hplaced.length_eq
  have hargs : (argv.length + 1) * 8 ≤ PGSIZE := by
    simp only [MAXARG, PGSIZE] at hargc ⊢
    omega
  have hdown := stackDown_eq (n := (argv.length + 1) * 8) (hplaced.last_aligned h16) (by omega)
    (by omega)
  have hup := le_up16 ((argv.length + 1) * 8)
  have haligned : stackDown last ((argv.length + 1) * 8) % 16 = 0 := by
    rw [stackDown]
    omega
  generalize stackDown last ((argv.length + 1) * 8) = sp at *
  split
  · refine ⟨(by rintro _ ⟨⟩), fun _ => .inr ?_⟩
    rw [blockBytes]
    omega
  next hcmp =>
  have harray : ((ptrs ++ [0]).flatMap (leBytes 8)).length = (argv.length + 1) * 8 := by
    rw [length_flatMap_leBytes, List.length_append, List.length_singleton, hlen, Nat.mul_comm]
  refine wp_seq (wp_copyout_writable h₃ fun a hge' hlt' => ?_) ?_
  · rw [Writable, userPage_congr htr₃]
    exact hw a (by omega) (by omega)
  rintro res s₄ ⟨rfl, h₄, hstored⟩
  rw [if_neg (by decide)]
  refine ⟨?_, (by rintro ⟨⟩)⟩
  rintro _ ⟨⟩
  have hbytes : ∀ a, a < sp ∨ last ≤ a → userByte s₄ r a = userByte s₃ r a := fun a ha => by
    rw [hstored.bytes, if_neg (by omega)]
  refine ⟨rfl, ⟨htop ▸ Nat.le_add_left _ _, haligned, ?_, ⟨ptrs, hlen,
    holds_of_stored hstored, ?_, ?_⟩, ?_⟩, ?_⟩
  · rw [hbase]
    exact Nat.not_lt.1 hcmp
  · intro i p arg hp harg
    obtain ⟨hp16, hle', htop'', hholds⟩ := hplaced.get h16 hp harg
    exact ⟨hp16, by omega, htop'', hholds.congr fun x hx _ => hbytes x (.inr (hle'.trans hx))⟩
  · exact fun i j p q arg hij hp hq harg => hplaced.under h16 hij hp hq harg
  · intro a hge' hlt'
    rw [hguard] at hge'
    rw [hbase] at hlt'
    rw [userByte, userPage_congr (hstored.pages.trans htr₃), hready.guard a hge' hlt']
    rfl
  · rw [blockBytes]
    omega

/-- Below the argument block's page the user finds what was there, and the guard page. -/
theorem wp_buildStack_below {newsz tf : Nat} {O : Multiset Nat} {argv : List (List UInt8)}
    (h : UserSpace s r true (pages newsz) tf O) (ho : Owned s O) (hargc : argv.length < MAXARG)
    (hshort : ∀ arg ∈ argv, arg.length < PGSIZE) :
    wp (buildStack r newsz argv) E (fun res s' => res.1 ≠ none →
      ∀ a < res.2 - USERSTACK * PGSIZE,
        userByte s' r a = if a < pgRoundUp newsz then userByte s r a else none) s := by
  refine wp_imp (wp_and (wp_buildStack_block h ho hargc hshort)
    (wp_buildStack_kept (E := fun _ => True) h ho hargc)) ?_
  rintro ⟨sp | sp, sz⟩ s' ⟨⟨hok, -⟩, hkept⟩ hne a ha
  · exact absurd rfl hne
  obtain ⟨rfl, hblock, -⟩ := hok sp rfl
  split
  · next hlt => exact ((hkept hne).2 a hlt).2
  · next hge =>
    refine hblock.guard a ?_ ha
    rw [Nat.add_sub_cancel]
    exact Nat.not_lt.1 hge

/-- What the user sees of an address space depends on its pages only. -/
theorem userByte_congr {s' : Memory} {n tf : Nat} {u : Bool} {O : Multiset Nat}
    (h : UserSpace s r u n tf O) (ho : Owned s O) (hmem : ∀ x ∈ O, s'.mem x = s.mem x) :
    userByte s' r = userByte s r := by
  obtain ⟨P, f, rfl, hmaps, hhidden⟩ := UserSpace.maps h ho
  have htable := hmaps.table.frame fun x hx => hmem x (Multiset.mem_add.2 (.inl hx))
  funext a
  rw [userByte, userByte, userPage_congr (hmaps.table.translation_congr htable)]
  refine Option.map_congr fun e he => ?_
  obtain ⟨hv, hpa, -⟩ := hmaps.userPage_word hhidden he
  have hmem' := mem_mapped (f := f) (v := 0) hv
  rw [Nat.zero_add, ← hpa] at hmem'
  rw [hmem _ (Multiset.mem_add.2 (.inr hmem'))]

end

/-! ## The argument block of a process -/

section
variable [KernelImage] {memory : Memory} {as : List ProcAct} {k : Kernel}

/-- **The argument block of `exec`.**  In every reachable state, with the pages `X` of the arguments
taken from the free list, `exec` of fewer than `MAXARG` strings, each shorter than a page, returns
without an index out of bounds.  When it succeeds, the process's new image ends with the argument
block, and the registers `a1` and `sp` point to it; when the block does not fit, it fails.  Building
the stack changes nothing below its page, and no subtraction from the stack pointer wraps. -/
theorem exec_argument_block (hpages : MachinePages (memory.freeList : Multiset Nat))
    (hrun : Machine.Run Kernel.step (Kernel.initial memory) as k) {p : Pid}
    (hp : (k.procs p).state = .running) {s : Memory} {X : Multiset Nat}
    (hargs : Moves k.memory 0 s X) (path : List UInt8) (file : Option Process.Inode)
    {argv : List (List UInt8)} (hargc : argv.length < MAXARG)
    (hshort : ∀ arg ∈ argv, arg.length < PGSIZE) :
    (∃ res k', (Process.exec p path file argv).run { k with memory := s } = .ok (res, k') ∧
      (res = -1 ∨ res = argv.length ∧ ∃ tf new sp,
        (k'.procs p).trapframe = some tf ∧ (k'.procs p).pagetable = some new ∧
        (k'.memory.mem tf).u64 Process.offA1 = sp ∧ (k'.memory.mem tf).u64 Process.offSp = sp ∧
        ArgBlock (userByte k'.memory new) (k'.procs p).sz argv sp) ∧
      (USERSTACK * PGSIZE < blockBytes argv → res = -1)) ∧
    (∀ {m : Memory} {r newsz tf : Nat} {O : Multiset Nat}, UserSpace m r true (pages newsz) tf O →
      Owned m O → wp (buildStack r newsz argv) (fun _ => False) (fun res m' => res.1 ≠ none →
        ∀ a < res.2 - USERSTACK * PGSIZE,
          userByte m' r a = if a < pgRoundUp newsz then userByte m r a else none) m) ∧
    ∀ newsz, ∀ q ∈ subtractions (newsz + PGSIZE) (newsz + (USERSTACK + 1) * PGSIZE)
      (blockSizes argv), q.2 ≤ q.1 := by
  have hledger := (ledger_of_run hpages hrun).held hpages hargs
  have hlive : (k.procs p).state ≠ .unused := by
    rw [hp]
    decide
  refine ⟨?_, fun hspace ho => wp_buildStack_below hspace ho hargc hshort, fun newsz => ?_⟩
  · obtain ⟨tf, r, O, htf, -, -, -, -⟩ := hledger.space hpages hlive
    have hexec : wp (Process.exec p path file argv) (fun _ => False) _ { k with memory := s } :=
      wp_exec_stack (A := fun _ _ _ _ => True) (B := fun _ r res m => ∀ sp, res.1 = some sp →
        ArgBlock (userByte m r) res.2 argv sp ∧ sp + blockBytes argv = res.2)
      hpages hledger hlive htf hargc
      (fun ip r m O hspace ho => wp_imp (wp_loadSegments hspace ho) fun _ _ _ => trivial)
      fun ip r newsz m O hspace ho _ =>
        wp_imp (wp_buildStack_block hspace ho hargc hshort) fun res m' hres sp hsp =>
          (hres.1 sp hsp).2
    obtain ⟨res, k', hres, -, hout⟩ := wp_total hexec
    refine ⟨res, k', hres, ?_⟩
    rcases hout with ⟨rfl, -⟩ |
      ⟨rfl, ip, new, sz, sp, -, -, hdone, m, O', hblock, hspace, ho, hdata⟩
    · exact ⟨.inl rfl, fun _ => rfl⟩
    obtain ⟨hargs', htotal⟩ := hblock sp rfl
    obtain ⟨tf', -, -, -, htf', -, -, -, -, -, hregs⟩ := hdone.pages
    obtain rfl : tf = tf' := Option.some.inj (htf.symm.trans htf')
    have hsp : sp < 2 ^ 64 :=
      lt_of_le_of_lt ((Nat.le.intro htotal).trans (le_of_pages_le hspace.1)) (by decide)
    refine ⟨.inr ⟨rfl, tf, new, sp, ?_, ?_, ?_, ?_, ?_⟩, fun hlt => ?_⟩
    · rw [hdone.procs, Function.update_self]
      exact htf
    · rw [hdone.procs, Function.update_self]
    · rw [hregs, Bytes.u64_setU64_disjoint (by decide), Bytes.u64_setU64_disjoint (by decide),
        Bytes.u64_setU64_same (by decide) hsp]
    · rw [hregs, Bytes.u64_setU64_same (by decide) hsp]
    · rw [hdone.procs, Function.update_self, userByte_congr hspace ho hdata]
      exact hargs'
    · have habove := hargs'.above
      have hsize := hargs'.size
      omega
  · refine subtractions_le (fun n hn => ?_) ?_
    · rw [blockSizes, List.mem_append, List.mem_map, List.mem_singleton] at hn
      rcases hn with ⟨arg, harg, rfl⟩ | rfl
      · exact (Nat.succ_le_of_lt (hshort arg harg)).trans (Nat.le_add_left _ _)
      · refine le_trans ?_ (Nat.le_add_left PGSIZE newsz)
        simp only [MAXARG, PGSIZE] at hargc ⊢
        omega
    · exact Nat.add_le_add_left (Nat.le_mul_of_pos_left _ (Nat.succ_pos _)) _

omit [KernelImage] in
/-- The first process runs a program with two arguments, and they are on its stack. -/
theorem exec_argument_block_small : ∃ k, @Machine.Run Kernel ProcAct Panic (@Kernel.step smallImage)
    (Kernel.initial lowMemory) [.boot, .run initPid] k ∧ ∃ k',
      (@Process.exec smallImage initPid [47, 97] (some exitElf) [[97], [98, 99]]).run k =
        .ok (2, k') ∧
      ∃ tf new sp, (k'.procs initPid).trapframe = some tf ∧
        (k'.procs initPid).pagetable = some new ∧
        (k'.memory.mem tf).u64 Process.offA1 = sp ∧ (k'.memory.mem tf).u64 Process.offSp = sp ∧
        ArgBlock (userByte k'.memory new) (k'.procs initPid).sz [[97], [98, 99]] sp := by
  obtain ⟨k, hrun, hstate, k', hexec⟩ := lowMemory_execs
  have h := @exec_argument_block smallImage lowMemory _ k lowMemory_pages hrun _ hstate k.memory 0
    (Moves.refl _ _) [47, 97] (some exitElf) [[97], [98, 99]] (by decide) (by decide)
  obtain ⟨res, k'', hres, hout, -⟩ := h.1
  obtain ⟨rfl, rfl⟩ := Prod.mk.inj (Except.ok.inj (hres.symm.trans hexec))
  refine ⟨k, hrun, k'', hexec, ?_⟩
  rcases hout with hfail | ⟨-, hblock⟩
  · exact absurd hfail (by decide)
  · exact hblock

end

end Xv6pp
