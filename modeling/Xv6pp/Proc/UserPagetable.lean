import Xv6pp.Proc.Process
import Xv6pp.Vm.AddressSpace

/-!
# The page table of a process

`create_pagetable` and `free_pagetable` build and tear down the address space of a process
(`UserSpace`): user memory, the trapframe of the process and the trampoline.  The functions that
`exec` is made of (`loadseg`, the segment loop, the stack) keep such an address space.
-/

set_option autoImplicit false

namespace Xv6pp
namespace VirtualMemory

open Prog Radix

attribute [local irreducible] freewalk

variable [KernelImage]

/-! ## The two pages above the user memory -/

/-- The entry of the trampoline. -/
def trampolinePte : Nat := mkPte KernelImage.trampoline (PTE_R ||| PTE_X)

/-- The entry of the trapframe `tf`. -/
def trapframePte (tf : Nat) : Nat := mkPte tf (PTE_R ||| PTE_W)

/-- The address space of a process with the trapframe `tf` and `n` user pages. -/
abbrev UserSpace (s : Memory) (r : Nat) (u : Bool) (n tf : Nat) (O : Multiset Nat) : Prop :=
  Space s r u n (trapframePte tf) trampolinePte O

omit [KernelImage] in
/-- An entry for a page of the machine, made with permissions among which is reading. -/
theorem leaf_of_lt {p perm : Nat} (hp : p < PHYSTOP) (hperm : perm < 1024)
    (hV : has (perm ||| PTE_V) PTE_V) (hR : has (perm ||| PTE_V) PTE_R) : Leaf (mkPte p perm) := by
  have hor : perm ||| PTE_V < 1024 := Nat.or_lt_two_pow (n := 10) hperm (by decide)
  have hassoc : mkPte p perm = pa2pte p ||| (perm ||| PTE_V) := Nat.or_assoc _ _ _
  rw [hassoc]
  refine ⟨?_, ?_, pa2pte_or_lt hp hor⟩
  · rwa [has_pa2pte_or p _ (by decide)]
  · rwa [has_pa2pte_or p _ (by decide)]

theorem trampoline_lt_phystop : KernelImage.trampoline < PHYSTOP :=
  lt_of_lt_of_le KernelImage.trampoline_lt KernelImage.kernelEnd_le

theorem leaf_trampolinePte : Leaf trampolinePte :=
  leaf_of_lt trampoline_lt_phystop (by decide) (by decide) (by decide)

theorem leaf_trapframePte {tf : Nat} (h : PageOk tf) : Leaf (trapframePte tf) :=
  leaf_of_lt h.lt (by decide) (by decide) (by decide)

omit [KernelImage] in
theorem not_has_U_mkPte (p : Nat) {perm : Nat} (h : has (perm ||| PTE_V) PTE_U = false) :
    has (mkPte p perm) PTE_U = false := by
  have hassoc : mkPte p perm = pa2pte p ||| (perm ||| PTE_V) := Nat.or_assoc _ _ _
  rw [hassoc, has_pa2pte_or p _ (by decide), h]

theorem highHidden (tf : Nat) : HighHidden (trapframePte tf) trampolinePte :=
  ⟨not_has_U_mkPte tf (by decide), not_has_U_mkPte _ (by decide)⟩

omit [KernelImage] in
theorem high_update_trampoline (a b w : Nat) :
    high a w = Function.update (high a b) (trapPage + 1) w := by
  funext v
  rw [Function.update_apply, high, high]
  split
  · rw [if_neg (by omega)]
  · split <;> rfl

omit [KernelImage] in
theorem high_update_trapframe (a b w : Nat) :
    high w b = Function.update (high a b) trapPage w := by
  funext v
  rw [Function.update_apply, high, high]
  split <;> rfl

/-! ## `create_pagetable` and `free_pagetable` -/

section
variable {E : Panic → Prop} {s : Memory} {r n tf sz : Nat} {u : Bool} {O A : Multiset Nat}

omit [KernelImage] in
theorem trampoline_eq : TRAMPOLINE = (trapPage + 1) * PGSIZE := rfl
omit [KernelImage] in
theorem trapframe_eq : TRAPFRAME = trapPage * PGSIZE := rfl

/-- An empty page table. -/
theorem wp_create (ho : Owned s A) :
    wp VirtualMemory.create E (fun res s' =>
      (res = none ∧ Moves s A s' A) ∨
      ∃ p, res = some p ∧ Space s' p true 0 0 0 {p} ∧ Moves s A s' (p ::ₘ A)) s := by
  rw [VirtualMemory.create]
  refine wp_bind.2 (wp_alloc_page ho (fun s' hm _ => .inl ⟨rfl, hm⟩) fun p s₁ hm _ _ => ?_)
  rw [wp_bind, wp_memsetZero]
  refine .inr ⟨p, rfl, ?_, hm.trans (Moves.storeWord (by simp) _)⟩
  refine ⟨Nat.zero_le _, {p}, fun _ => 0, Tab.empty fun k _ => word_zero s₁ p k, ?_, nofun, ?_⟩
  · rw [mapped_zero, add_zero]
  · intro v _ _
    rw [high, ite_self, ite_self]

/-- **`create_pagetable`** makes an address space without user memory, or fails and keeps no
page. -/
theorem wp_createPagetable (htf : PageOk tf) (ho : Owned s A) :
    wp (ProcessManager.createPagetable tf) E (fun res s' =>
      (res = none ∧ Moves s A s' A) ∨
      ∃ r O, res = some r ∧ UserSpace s' r true 0 tf O ∧ Moves s A s' (O + A)) s := by
  rw [ProcessManager.createPagetable]
  refine wp_seq (wp_create ho) ?_
  rintro res s₁ (⟨rfl, hm₁⟩ | ⟨p, rfl, hsp₁, hm₁⟩)
  · exact .inl ⟨rfl, hm₁⟩
  have hm₁' : Moves s A s₁ ({p} + A) := hm₁
  -- the page table is given back when one of the two mappings fails
  have hfail : ∀ s₂ O₂, Space s₂ p true 0 0 0 O₂ → Moves s A s₂ (O₂ + A) →
      wp (VirtualMemory.free p 0 >>= fun _ => pure none) E (fun res s' =>
        (res = none ∧ Moves s A s' A) ∨
        ∃ r O, res = some r ∧ UserSpace s' r true 0 tf O ∧ Moves s A s' (O + A)) s₂ := by
    intro s₂ O₂ hsp₂ hm₂
    refine wp_seq (wp_vmFree hsp₂ ((ho.moves hm₂).of_le (Multiset.le_add_right _ _))) ?_
    intro _ s₃ hm₃
    have := hm₂.trans (hm₃.add A)
    rw [zero_add] at this
    exact .inl ⟨rfl, this⟩
  rw [trampoline_eq]
  refine wp_seq (wp_map_high hsp₁
    ((ho.moves hm₁').of_le (Multiset.le_add_right _ _)) (by omega) (by decide) rfl
    leaf_trampolinePte.lt (high_update_trampoline 0 0 _)) ?_
  rintro res s₂ ⟨O₂, hm₂, ⟨rfl, hsp₂⟩ | ⟨rfl, hsp₂⟩⟩
  · rw [if_pos (by decide)]
    exact hfail s₂ O₂ hsp₂ (hm₁'.trans (hm₂.add A))
  rw [if_neg (by decide), trapframe_eq]
  have hm₂' := hm₁'.trans (hm₂.add A)
  refine wp_seq (wp_map_high hsp₂
    ((ho.moves hm₂').of_le (Multiset.le_add_right _ _)) (by omega) (by decide) rfl
    (leaf_trapframePte htf).lt (high_update_trapframe 0 _ _)) ?_
  rintro res s₃ ⟨O₃, hm₃, ⟨rfl, hsp₃⟩ | ⟨rfl, hsp₃⟩⟩
  · rw [if_pos (by decide)]
    have hm₃' := hm₂'.trans (hm₃.add A)
    have hl : Leaf (high 0 trampolinePte (trapPage + 1)) := by
      rw [high, if_neg (by omega), if_pos rfl]
      exact leaf_trampolinePte
    refine wp_seq (wp_unmap_high hsp₃
      ((ho.moves hm₃').of_le (Multiset.le_add_right _ _)) (by omega) (by decide) hl
      (high_update_trampoline 0 _ 0)) ?_
    rintro _ s₄ ⟨hsp₄, hm₄⟩
    exact hfail s₄ O₃ hsp₄ (hm₃'.trans (hm₄.add A))
  · rw [if_neg (by decide)]
    exact .inr ⟨p, O₃, rfl, hsp₃, hm₂'.trans (hm₃.add A)⟩

/-- **`free_pagetable`** gives back all pages of an address space. -/
theorem wp_freePagetable (h : UserSpace s r u (pages sz) tf O) (ho : Owned s O) (htf : PageOk tf) :
    wp (ProcessManager.freePagetable r sz) E (fun _ s' => Moves s O s' 0) s := by
  rw [ProcessManager.freePagetable, trampoline_eq, trapframe_eq]
  have hl : Leaf (high (trapframePte tf) trampolinePte (trapPage + 1)) := by
    rw [high, if_neg (by omega), if_pos rfl]
    exact leaf_trampolinePte
  refine wp_seq (wp_unmap_high h ho (by omega) (by decide) hl
    (high_update_trampoline _ _ 0)) ?_
  rintro _ s₁ ⟨hsp₁, hm₁⟩
  have hl' : Leaf (high (trapframePte tf) 0 trapPage) := by
    rw [high, if_pos rfl]
    exact leaf_trapframePte htf
  refine wp_seq (wp_unmap_high hsp₁ (ho.moves hm₁) le_rfl (by decide) hl'
    (high_update_trapframe _ 0 0)) ?_
  rintro _ s₂ ⟨hsp₂, hm₂⟩
  have hm₂' := hm₁.trans hm₂
  exact wp_imp (wp_vmFree hsp₂ (ho.moves hm₂')) fun _ s₃ hm₃ => hm₂'.trans hm₃

end

/-! ## The parts of `exec` -/

section
variable {E : Panic → Prop} {s : Memory} {r n tf sz : Nat} {u : Bool} {O A : Multiset Nat}

open Process

/-- The loop of `loadseg` finds its pages and changes only user memory. -/
theorem wp_loadsegFrom {va offset sz m i : Nat} {ip : Process.Inode} (h : UserSpace s r true n tf O)
    (ho : Owned s O) (hrange : ∀ j < m, (va + i + j * PGSIZE) / PGSIZE < n) :
    wp (loadsegFrom r va ip offset sz m i) E (fun _ s' =>
      UserSpace s' r true n tf O ∧ Moves s O s' O) s := by
  induction m generalizing i s with
  | zero => exact ⟨h, Moves.refl s O⟩
  | succ m ih =>
    have hin : (va + i) / PGSIZE < n := by simpa using hrange 0 (by omega)
    have hva : (va + i) % 2 ^ 64 = va + i := by
      have hn := h.1
      refine Nat.mod_eq_of_lt ?_
      simp only [trapPage, TRAPFRAME, TRAMPOLINE, MAXVA, PGSIZE] at *
      omega
    rw [loadsegFrom, hva]
    refine wp_seq (wp_walkaddr_user h ho (highHidden tf)) ?_
    rintro (_ | pa) s' ⟨rfl, hsome, hfound⟩
    · exact absurd rfl (hfound rfl hin)
    · obtain ⟨hpa, hstore⟩ := hsome pa rfl
      simp only [wp_bind, wp_modify, wp_ite]
      have hm := Moves.storeWord (s := s') hpa ((s'.mem pa).write 0 (ip.readi ((offset + i) % 2 ^ 32)
        (min PGSIZE (sz - i))))
      refine ⟨fun _ => ⟨hstore _, hm⟩, fun _ => ?_⟩
      refine wp_imp (ih (hstore _) (ho.moves hm) fun j hj => ?_) ?_
      · have := hrange (j + 1) (by omega)
        rwa [show va + i + (j + 1) * PGSIZE = va + (i + PGSIZE) + j * PGSIZE by ring] at this
      · rintro _ s'' ⟨hsp, hm'⟩
        exact ⟨hsp, hm.trans hm'⟩

omit [KernelImage] in
theorem flags2perm_lt (flags : Nat) : flags2perm flags < 1024 := by
  rw [flags2perm]
  split <;> split <;> decide

/-- Loading one segment keeps the shape of the new image, also when it fails. -/
theorem wp_loadSegment {ip : Process.Inode} {off newsz : Nat} (h : UserSpace s r true (pages newsz) tf O)
    (ho : Owned s O) :
    wp (loadSegment r ip off newsz) E (fun res s' =>
      ∃ O', UserSpace s' r true (pages res.2) tf O' ∧ Moves s O s' O') s := by
  have hsame : ∃ O', UserSpace s r true (pages newsz) tf O' ∧ Moves s O s O' :=
    ⟨O, h, Moves.refl s O⟩
  rw [loadSegment]
  generalize ip.readi off sizeofProghdr = ph
  have hv : leField ph 16 8 < 2 ^ 64 := leField_lt ph 16 8
  have hm : leField ph 40 8 < 2 ^ 64 := leField_lt ph 40 8
  generalize leField ph 16 8 = vaddr at *
  generalize leField ph 40 8 = memsz at *
  generalize leField ph 32 8 = filesz at *
  simp only [wp_ite, wp_pure]
  refine ⟨fun _ => hsame, fun _ => ⟨fun _ => hsame, fun _ => ⟨fun _ => hsame, fun hle =>
    ⟨fun _ => hsame, fun hno => ⟨fun _ => hsame, fun haligned => ?_⟩⟩⟩⟩⟩
  have hsum : (vaddr + memsz) % 2 ^ 64 = vaddr + memsz := Nat.mod_eq_of_lt (by omega)
  rw [hsum]
  refine wp_seq (wp_vmAlloc h ho (flags2perm_lt _)) ?_
  rintro sz1 s₁ ⟨O₁, hm₁, ⟨hsz1, hsp₁⟩ | ⟨rfl, hsp₁⟩⟩
  swap
  · rw [if_pos rfl]
    exact ⟨O₁, hsp₁, hm₁⟩
  split
  · next h0 =>
    obtain rfl : newsz = 0 := by omega
    rw [← hsz1, h0] at hsp₁
    exact ⟨O₁, hsp₁, hm₁⟩
  · rw [← hsz1] at hsp₁
    rw [loadseg]
    refine wp_seq (wp_loadsegFrom hsp₁ (ho.moves hm₁) fun j hj => ?_) ?_
    · have hmod : filesz % 2 ^ 32 ≤ filesz := Nat.mod_le _ _
      have hmax : vaddr + memsz ≤ sz1 := hsz1 ▸ le_max_right _ _
      simp only [pages, PGSIZE] at *
      omega
    · rintro res s₂ ⟨hsp₂, hm₂⟩
      simp only [wp_ite, wp_pure]
      exact ⟨fun _ => ⟨O₁, hsp₂, hm₁.trans hm₂⟩, fun _ => ⟨O₁, hsp₂, hm₁.trans hm₂⟩⟩

/-- The segment loop keeps the shape of the new image. -/
theorem wp_loadSegments {ip : Process.Inode} {m off newsz : Nat}
    (h : UserSpace s r true (pages newsz) tf O) (ho : Owned s O) :
    wp (loadSegments r ip m off newsz) E (fun res s' =>
      ∃ O', UserSpace s' r true (pages res.2) tf O' ∧ Moves s O s' O') s := by
  induction m generalizing off newsz s O with
  | zero => exact ⟨O, h, Moves.refl s O⟩
  | succ m ih =>
    rw [loadSegments]
    refine wp_seq (wp_loadSegment h ho) ?_
    rintro ⟨ok, newsz₁⟩ s₁ ⟨O₁, hsp₁, hm₁⟩
    cases ok with
    | false => exact ⟨O₁, hsp₁, hm₁⟩
    | true =>
      refine wp_imp (ih hsp₁ (ho.moves hm₁)) ?_
      rintro res s₂ ⟨O₂, hsp₂, hm₂⟩
      exact ⟨O₂, hsp₂, hm₁.trans hm₂⟩

/-- Pushing the arguments changes only user memory. -/
theorem wp_pushArgs {stackbase sp : Nat} {argv : List (List UInt8)} {ustack : List Nat}
    (h : UserSpace s r u n tf O) (ho : Owned s O) :
    wp (pushArgs r stackbase argv sp ustack) E (fun _ s' =>
      UserSpace s' r u n tf O ∧ Moves s O s' O) s := by
  induction argv generalizing sp ustack s with
  | nil => exact ⟨h, Moves.refl s O⟩
  | cons arg argv ih =>
    rw [pushArgs]
    simp only [wp_ite, wp_pure]
    refine ⟨fun _ => ⟨h, Moves.refl s O⟩, fun _ => ⟨fun _ => ⟨h, Moves.refl s O⟩, fun _ => ?_⟩⟩
    refine wp_seq (wp_copyout_user h ho (highHidden tf)) ?_
    rintro res s₁ ⟨hsp₁, hm₁⟩
    simp only [wp_ite, wp_pure]
    refine ⟨fun _ => ⟨hsp₁, hm₁⟩, fun _ => ?_⟩
    refine wp_imp (ih hsp₁ (ho.moves hm₁)) ?_
    rintro _ s₂ ⟨hsp₂, hm₂⟩
    exact ⟨hsp₂, hm₁.trans hm₂⟩

/-- Building the stack keeps the shape of the new image, also when it fails. -/
theorem wp_buildStack {newsz : Nat} {argv : List (List UInt8)}
    (h : UserSpace s r true (pages newsz) tf O) (ho : Owned s O) (hargc : argv.length < MAXARG) :
    wp (buildStack r newsz argv) E (fun res s' =>
      ∃ O', UserSpace s' r false (pages res.2) tf O' ∧ Moves s O s' O') s := by
  have hsz : newsz ≤ MAXVA := (le_of_pages_le h.1).trans (by decide)
  rw [buildStack, pgRoundUp_eq hsz]
  generalize hk : pages newsz = k at *
  have hsp : UserSpace s r true (pages (k * PGSIZE)) tf O := by rwa [pages_mul]
  refine wp_seq (wp_vmAlloc hsp ho (by decide)) ?_
  have hmax : max (k * PGSIZE) (k * PGSIZE + (USERSTACK + 1) * PGSIZE) = (k + 2) * PGSIZE := by
    simp only [USERSTACK, PGSIZE]
    omega
  rw [hmax, pages_mul, pages_mul]
  rintro sz1 s₁ ⟨O₁, hm₁, ⟨hsz1, hsp₁⟩ | ⟨rfl, hsp₁⟩⟩
  swap
  · rw [if_pos rfl]
    refine ⟨O₁, ?_, hm₁⟩
    rw [pages_mul]
    exact hsp₁.weaken
  have hpages : pages sz1 = k + 2 := by rw [hsz1, pages_mul]
  have hguard : sz1 - (USERSTACK + 1) * PGSIZE = k * PGSIZE := by
    simp only [USERSTACK, PGSIZE] at *
    omega
  rw [if_neg (by simp only [PGSIZE] at *; omega), hguard]
  rw [← hpages] at hsp₁
  refine wp_seq (wp_clear_user hsp₁ (ho.moves hm₁) (by omega)) ?_
  rintro _ s₂ ⟨hsp₂, hm₂⟩
  have hm₂' := hm₁.trans hm₂
  refine wp_seq (wp_pushArgs hsp₂ (ho.moves hm₂')) ?_
  intro res s₃ hpost
  have hsp₃ := hpost.1
  have hm₃' := hm₂'.trans hpost.2
  cases res with
  | none => exact ⟨O₁, hsp₃, hm₃'⟩
  | some res =>
    simp only [if_neg (Nat.not_le.2 hargc), wp_ite, wp_pure]
    refine ⟨fun _ => ⟨O₁, hsp₃, hm₃'⟩, fun _ => ?_⟩
    refine wp_seq (wp_copyout_user hsp₃ (ho.moves hm₃') (highHidden tf)) ?_
    rintro res s₄ ⟨hsp₄, hm₄⟩
    simp only [wp_ite, wp_pure]
    exact ⟨fun _ => ⟨O₁, hsp₄, hm₃'.trans hm₄⟩, fun _ => ⟨O₁, hsp₄, hm₃'.trans hm₄⟩⟩

end

end VirtualMemory
end Xv6pp
