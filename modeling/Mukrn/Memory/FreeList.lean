import Mukrn.Memory.Owned

/-! The free list on its own: distinct pages threaded through their first words. A page can be
popped and pushed, and what was pushed can be read back off the list. -/
namespace Mukrn
open ByteMemory LinkedStack

/-- The list followed from `free_stack` is finite, without repetitions, and made of pages. -/
structure FreeList (h : Machine) (fl : List ℕ) : Prop where
  chain : Chain (load64 h.mem) 0 h.freeStack fl
  nodup : fl.Nodup
  page : ∀ f ∈ fl, f % 4096 = 0 ∧ f < 2 ^ 64

namespace FreeList

variable {h : Machine} {fl : List ℕ} {f : ℕ}

theorem pos (hl : FreeList h fl) (hf : f ∈ fl) : 0 < f := Nat.pos_of_ne_zero (hl.chain.ne_nil f hf)

theorem top_lt (hl : FreeList h fl) : h.freeStack < 2 ^ 64 := by
  cases fl with
  | nil =>
    rw [show h.freeStack = 0 from hl.chain]
    decide
  | cons f fl =>
    rw [hl.chain.1]
    exact (hl.page f List.mem_cons_self).2

theorem eq_nil_iff (hl : FreeList h fl) : fl = [] ↔ h.freeStack = 0 := by
  constructor
  · rintro rfl
    exact hl.chain
  · intro h0
    exact chain_nil_iff.mp (h0 ▸ hl.chain)

/-- The list only depends on the contents of its pages. -/
theorem congr (hl : FreeList h fl) {h' : Machine} (htop : h'.freeStack = h.freeStack)
    (hm : ∀ f ∈ fl, ∀ a, f ≤ a → a < f + 8 → h'.mem a = h.mem a) : FreeList h' fl := by
  refine ⟨?_, hl.nodup, hl.page⟩
  rw [htop]
  apply hl.chain.congr
  intro f hf
  apply load_congr
  intro i hi
  exact hm f hf _ (Nat.le_add_right f i) (by omega)

/-- The rest of the list after its first page has been taken. -/
theorem take (hl : FreeList h (f :: fl)) : FreeList (h.take f) fl := by
  obtain ⟨-, -, ht⟩ := hl.chain
  obtain ⟨hn, hnd⟩ := List.nodup_cons.mp hl.nodup
  have hf := hl.page f List.mem_cons_self
  refine ⟨?_, hnd, fun g hg => hl.page g (List.mem_cons_of_mem f hg)⟩
  apply ht.congr
  intro g hg
  apply load_congr
  intro i hi
  apply h.take_outside
  have hg' := hl.page g (List.mem_cons_of_mem f hg)
  have hne : g ≠ f := fun he => hn (he ▸ hg)
  omega

theorem alloc_cons (hl : FreeList h (f :: fl)) : pmmAllocPage h = (f, h.take f) :=
  pmmAllocPage_taken hl.chain.1 hl.chain.2.1

theorem alloc_nil (hl : FreeList h []) : pmmAllocPage h = (0, h) := if_pos (hl.eq_nil_iff.mp rfl)

/-- A page is pushed. -/
theorem push (hl : FreeList h fl) (hf : f % 4096 = 0 ∧ f < 2 ^ 64) (h0 : 0 < f) (hn : f ∉ fl) :
    FreeList (pmmFreePage h f) (f :: fl) := by
  refine ⟨?_, List.nodup_cons.mpr ⟨hn, hl.nodup⟩, ?_⟩
  · apply hl.chain.push h0.ne' (load64_store64 hl.top_lt)
    intro g hg
    apply load_store_outside
    have hg' := hl.page g hg
    have hne : g ≠ f := fun he => hn (he ▸ hg)
    omega
  · intro g hg
    rcases List.mem_cons.mp hg with rfl | hg
    · exact hf
    · exact hl.page g hg

/-- Below a pushed page is the list as it was. -/
theorem of_push (htop : h.freeStack < 2 ^ 64) (hl : FreeList (pmmFreePage h f) fl) (h0 : f ≠ 0) :
    ∃ fl', fl = f :: fl' ∧ FreeList h fl' := by
  obtain ⟨fl', rfl, ht⟩ := hl.chain.exists_cons h0
  have hf : f % 4096 = 0 ∧ f < 2 ^ 64 := hl.page _ List.mem_cons_self
  have hlink : load64 (pmmFreePage h f).mem f = h.freeStack := load64_store64 htop
  obtain ⟨hn, hnd⟩ := List.nodup_cons.mp hl.nodup
  have hn : f ∉ fl' := hn
  refine ⟨fl', rfl, ?_, hnd, fun g hg => hl.page g (List.mem_cons_of_mem _ hg)⟩
  rw [← hlink]
  apply Chain.congr ht
  intro g hg
  have hg' := hl.page g (List.mem_cons_of_mem _ hg)
  have hne : g ≠ f := fun he => hn (he ▸ hg)
  exact (load_store_outside (by omega)).symm

/-- Pages are pushed one after the other. -/
theorem pushAll (hl : FreeList h fl) {pages : List ℕ}
    (hp : ∀ f ∈ pages, (f % 4096 = 0 ∧ f < 2 ^ 64) ∧ 0 < f ∧ f ∉ fl) (hnd : pages.Nodup) :
    FreeList (pmmFreePages h pages) (pages.reverse ++ fl) := by
  induction pages generalizing h fl with
  | nil => exact hl
  | cons f pages ih =>
    obtain ⟨hf, h0, hn⟩ := hp f List.mem_cons_self
    obtain ⟨hnot, hnd⟩ := List.nodup_cons.mp hnd
    rw [List.reverse_cons, List.append_assoc]
    apply ih (hl.push hf h0 hn) _ hnd
    intro g hg
    obtain ⟨hg1, hg2, hg3⟩ := hp g (List.mem_cons_of_mem f hg)
    refine ⟨hg1, hg2, ?_⟩
    rintro hm
    rcases List.mem_cons.mp hm with rfl | hm
    · exact hnot hg
    · exact hg3 hm

theorem of_pushAll {pages : List ℕ} (htop : h.freeStack < 2 ^ 64)
    (hl : FreeList (pmmFreePages h pages) fl) (hp : ∀ f ∈ pages, f < 2 ^ 64 ∧ f ≠ 0) :
    ∃ fl', fl = pages.reverse ++ fl' ∧ FreeList h fl' := by
  induction pages generalizing h with
  | nil => exact ⟨fl, rfl, hl⟩
  | cons f pages ih =>
    obtain ⟨hf, h0⟩ := hp f List.mem_cons_self
    obtain ⟨l, rfl, hl'⟩ := ih hf hl fun g hg => hp g (List.mem_cons_of_mem f hg)
    obtain ⟨fl', rfl, hl''⟩ := of_push htop hl' h0
    refine ⟨fl', ?_, hl''⟩
    rw [List.reverse_cons, List.append_assoc]
    rfl

end FreeList

end Mukrn
