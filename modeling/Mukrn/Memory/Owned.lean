import Mukrn.Kernel.Paging
import Mukrn.Library.LinkedStack

/-! Ownership of physical pages. Every page the kernel tracks has one use; the free list, the
page-table trees and the boot template are read off the uses, so that pages of different use
are never confused. -/
namespace Mukrn
open ByteMemory PageTable LinkedStack

/-- What a page is used for. A table page knows its root and its place under it. -/
inductive Use where
  | none
  | free
  | data
  | stack (slot : ℕ)
  | template
  | table (root : ℕ) (path : List ℕ)
  deriving DecidableEq

/-- The uses whose contents the kernel relies on. -/
def Use.Critical : Use → Prop
  | .free => True
  | .template => True
  | .table _ p => p.length < 3
  | _ => False

/-- The table pages among all pages. -/
def shape (use : ℕ → Use) : Shape := fun f =>
  match use f with
  | .table r p => some (r, p)
  | _ => none

theorem shape_eq_some {use : ℕ → Use} {f r : ℕ} {p : List ℕ} :
    shape use f = some (r, p) ↔ use f = .table r p := by
  unfold shape
  split
  next r' p' h => simp [h]
  next h => simp only [reduceCtorEq, false_iff]; exact h r p

theorem shape_update_table (use : ℕ → Use) (f r : ℕ) (p : List ℕ) :
    shape (Function.update use f (.table r p)) = Function.update (shape use) f (some (r, p)) := by
  funext g
  by_cases hg : g = f
  · subst hg
    simp [shape]
  · simp [shape, Function.update_of_ne hg]

/-- A use that is no table can be exchanged for another such use. -/
theorem shape_update_other {use : ℕ → Use} {f : ℕ} {u : Use} (hf : shape use f = none)
    (hu : ∀ r p, u ≠ .table r p) : shape (Function.update use f u) = shape use := by
  funext g
  by_cases hg : g = f
  · subst hg
    rw [hf]
    simp only [shape, Function.update_self]
  · simp only [shape, Function.update_of_ne hg]

/-- Contents of the three tables `setup_paging` builds. -/
structure Template (m : Mem) : Prop where
  pml4 : entry m 0x1000 0 = 0x2007
  pdpt : entry m 0x2000 0 = 0x3007
  pdt : ∀ i < 512, entry m 0x3000 i = 0x83 + 0x200000 * i

/-- The allocator's and the page tables' pages are where their uses say. -/
structure Owned (use : ℕ → Use) (fl : List ℕ) (h : Machine) : Prop where
  page : ∀ f, use f ≠ .none → f % 4096 = 0 ∧ 0 < f ∧ f < 2 ^ 64
  chain : Chain (load64 h.mem) 0 h.freeStack fl
  nodup : fl.Nodup
  free : ∀ f, f ∈ fl ↔ use f = .free
  tree : Tree (shape use) h.mem
  template : Template h.mem
  templateUse : ∀ f, f = 0x1000 ∨ f = 0x2000 ∨ f = 0x3000 ↔ use f = .template

theorem entry_of_page {m m' : Mem} {f i : ℕ} (h : ∀ a, f ≤ a → a < f + 4096 → m' a = m a)
    (hi : i < 512) : entry m' f i = entry m f i :=
  load_congr fun j hj => h _ (by omega) (by omega)

theorem Template.congr {m m' : Mem} (h : Template m)
    (hm : ∀ f, f = 0x1000 ∨ f = 0x2000 ∨ f = 0x3000 → ∀ a, f ≤ a → a < f + 4096 → m' a = m a) :
    Template m' := by
  refine ⟨?_, ?_, fun i hi => ?_⟩
  · rw [entry_of_page (hm _ (.inl rfl)) (by decide)]
    exact h.pml4
  · rw [entry_of_page (hm _ (.inr (.inl rfl))) (by decide)]
    exact h.pdpt
  · rw [entry_of_page (hm _ (.inr (.inr rfl))) hi]
    exact h.pdt i hi

/-- The two memories have the same contents outside the given pages. -/
def SameOutside (pages : List ℕ) (m m' : Mem) : Prop := ∀ a, a / 4096 * 4096 ∉ pages → m' a = m a

theorem SameOutside.trans {ps qs : List ℕ} {m m' m'' : Mem} (h : SameOutside ps m m')
    (h' : SameOutside qs m' m'') : SameOutside (ps ++ qs) m m'' := by
  intro a ha
  rw [List.mem_append, not_or] at ha
  rw [h' a ha.2, h a ha.1]

theorem SameOutside.mono {ps qs : List ℕ} {m m' : Mem} (h : SameOutside ps m m')
    (hs : ∀ f ∈ ps, f ∈ qs) : SameOutside qs m m' := fun a ha => h a fun hn => ha (hs _ hn)

/-- A page that is not among them is unchanged. -/
theorem SameOutside.page {ps : List ℕ} {m m' : Mem} (h : SameOutside ps m m') {f a : ℕ}
    (hf : f % 4096 = 0) (hn : f ∉ ps) (h1 : f ≤ a) (h2 : a < f + 4096) : m' a = m a :=
  h a (by rwa [show a / 4096 * 4096 = f by omega])

/-- Pages of no use keep their contents. -/
def KeepsUnused (use : ℕ → Use) (m m' : Mem) : Prop :=
  ∀ f, f % 4096 = 0 → use f = .none → ∀ a, f ≤ a → a < f + 4096 → m' a = m a

theorem KeepsUnused.refl (use : ℕ → Use) (m : Mem) : KeepsUnused use m m :=
  fun _ _ _ _ _ _ => rfl

theorem KeepsUnused.trans {use use' : ℕ → Use} {m m' m'' : Mem} (h : KeepsUnused use m m')
    (hu : ∀ f, use f = .none → use' f = .none) (h' : KeepsUnused use' m' m'') :
    KeepsUnused use m m'' := by
  intro f hf hn a h1 h2
  rw [h' f hf (hu f hn) a h1 h2, h f hf hn a h1 h2]

theorem SameOutside.keepsUnused {ps : List ℕ} {use : ℕ → Use} {m m' : Mem}
    (h : SameOutside ps m m') (hp : ∀ f ∈ ps, use f ≠ .none) : KeepsUnused use m m' :=
  fun f hf hn _ h1 h2 => h.page hf (fun hm => hp f hm hn) h1 h2

theorem SameOutside.one {m m' : Mem} {f : ℕ} (hf : f % 4096 = 0)
    (h : ∀ a, a < f ∨ f + 4096 ≤ a → m' a = m a) : SameOutside [f] m m' := by
  intro a ha
  refine h a ?_
  rw [List.mem_singleton] at ha
  omega

/-- The machine after the page `f` has been popped and cleared. -/
def Machine.take (h : Machine) (f : ℕ) : Machine :=
  { h with mem := fill h.mem f 4096 fun _ => 0, freeStack := load64 h.mem f }

theorem pmmAllocPage_taken {h : Machine} {k : ℕ} (hk : h.freeStack = k) (h0 : k ≠ 0) :
    pmmAllocPage h = (k, h.take k) := by
  rw [pmmAllocPage, if_neg (hk ▸ h0), hk]
  rfl

theorem Machine.take_outside (h : Machine) {f a : ℕ} (ha : a < f ∨ f + 4096 ≤ a) :
    (h.take f).mem a = h.mem a := by
  show fill h.mem f 4096 (fun _ => 0) a = h.mem a
  exact fill_outside ha

theorem Machine.take_entry (h : Machine) (f : ℕ) {i : ℕ} (hi : i < 512) :
    entry (h.take f).mem f i = 0 := load64_fill_zero (by omega) (by omega)

@[simp] theorem pagingSwitch_mem (h : Machine) (r : ℕ) : (pagingSwitch h r).mem = h.mem := rfl

theorem setEntry_outside (h : Machine) (v : ℕ) {t i a : ℕ} (hi : i < 512)
    (ha : a < t ∨ t + 4096 ≤ a) : (setEntry h t i v).mem a = h.mem a :=
  fill_outside (by omega)

namespace Owned

variable {use : ℕ → Use} {fl : List ℕ} {h : Machine}

/-- Ownership only depends on the contents of critical pages. -/
theorem congr (ho : Owned use fl h) {m : Mem}
    (hm : ∀ f, (use f).Critical → ∀ a, f ≤ a → a < f + 4096 → m a = h.mem a) :
    Owned use fl { h with mem := m } := by
  refine ⟨ho.page, ?_, ho.nodup, ho.free, ?_, ?_, ho.templateUse⟩
  · refine ho.chain.congr fun f hf => ?_
    have hu : (use f).Critical := by rw [(ho.free f).mp hf]; trivial
    have he := entry_of_page (i := 0) (hm f hu) (by decide)
    simpa only [entry, Nat.mul_zero, Nat.add_zero] using he
  · refine ho.tree.congr fun t r p ht hp i hi => ?_
    have hu : (use t).Critical := by rw [shape_eq_some.mp ht]; exact hp
    exact entry_of_page (hm t hu) hi
  · refine ho.template.congr fun f hf => hm f ?_
    rw [(ho.templateUse f).mp hf]
    trivial

theorem critical_page (ho : Owned use fl h) {f : ℕ} (hf : (use f).Critical) :
    f % 4096 = 0 ∧ 0 < f ∧ f < 2 ^ 64 := by
  refine ho.page f fun hn => ?_
  rw [hn] at hf
  exact hf

/-- A change inside one page of uncritical use. -/
theorem write (ho : Owned use fl h) {m : Mem} {g : ℕ} (hg : g % 4096 = 0)
    (hu : ¬ (use g).Critical) (hm : ∀ a, a < g ∨ g + 4096 ≤ a → m a = h.mem a) :
    Owned use fl { h with mem := m } := by
  refine ho.congr fun f hf a h1 h2 => hm a ?_
  have hpage := ho.critical_page hf
  have hne : f ≠ g := by
    rintro rfl
    exact hu hf
  omega

/-- A change inside pages of uncritical use. -/
theorem sameOutside (ho : Owned use fl h) {m : Mem} {pages : List ℕ}
    (hm : SameOutside pages h.mem m) (hu : ∀ f ∈ pages, ¬ (use f).Critical) :
    Owned use fl { h with mem := m } := by
  refine ho.congr fun f hf a h1 h2 => hm.page (ho.critical_page hf).1 (fun hn => hu f hn hf) h1 h2

/-- The page at address 0 is never tracked. -/
theorem use_zero (ho : Owned use fl h) : use 0 = .none := by
  by_contra hn
  exact absurd (ho.page 0 hn).2.1 (by decide)

theorem use_head (ho : Owned use fl h) (hn : h.freeStack ≠ 0) :
    ∃ fl', fl = h.freeStack :: fl' ∧ Chain (load64 h.mem) 0 (load64 h.mem h.freeStack) fl' ∧
      use h.freeStack = .free := by
  obtain ⟨fl', rfl, hc⟩ := ho.chain.exists_cons hn
  exact ⟨fl', rfl, hc, (ho.free _).mp (by simp)⟩

theorem head {f : ℕ} (ho : Owned use (f :: fl) h) :
    use f = .free ∧ f % 4096 = 0 ∧ 0 < f ∧ f < 2 ^ 64 := by
  have hu : use f = .free := (ho.free f).mp (by simp)
  exact ⟨hu, ho.page f (by rw [hu]; exact nofun)⟩

theorem ne_head {f g : ℕ} (ho : Owned use (f :: fl) h) (hg : use g ≠ .free) : g ≠ f := by
  rintro rfl
  exact hg ho.head.1

theorem shape_head {f : ℕ} (ho : Owned use (f :: fl) h) : shape use f = none := by
  rw [shape, ho.head.1]

theorem freeStack_eq_zero_iff (ho : Owned use fl h) : h.freeStack = 0 ↔ fl = [] := by
  constructor
  · intro h0
    have hc := ho.chain
    rw [h0] at hc
    exact chain_nil_iff.mp hc
  · rintro rfl
    exact ho.chain

theorem alloc_eq {f : ℕ} (ho : Owned use (f :: fl) h) : pmmAllocPage h = (f, h.take f) :=
  pmmAllocPage_taken ho.chain.1 ho.chain.2.1

/-- A free page gets a new use. Its contents are zero, so it may become any kind of table. -/
theorem alloc {f : ℕ} {u : Use} (ho : Owned use (f :: fl) h) (hu : u ≠ .free)
    (ht : u ≠ .template) (hroot : ∀ r, u = .table r [] → f = r) :
    Owned (Function.update use f u) fl (h.take f) := by
  obtain ⟨-, -, hc⟩ := ho.chain
  obtain ⟨hfree, hpage⟩ := ho.head
  obtain ⟨hnot, hnodup⟩ := List.nodup_cons.mp ho.nodup
  have hout {g : ℕ} (hg : g % 4096 = 0) (hne : g ≠ f) (a : ℕ) (h1 : g ≤ a) (h2 : a < g + 4096) :
      (h.take f).mem a = h.mem a := h.take_outside (by omega)
  have hshape : shape use f = none := by simp [shape, hfree]
  refine ⟨?_, ?_, hnodup, fun g => ?_, ?_, ?_, fun g => ?_⟩
  · intro g hg
    by_cases hgf : g = f
    · exact hgf ▸ hpage
    · rw [Function.update_of_ne hgf] at hg
      exact ho.page g hg
  · refine hc.congr fun g hg => ?_
    have hgu : use g = .free := (ho.free g).mp (by simp [hg])
    have hgp := ho.page g (by rw [hgu]; exact nofun)
    have hne : g ≠ f := fun he => hnot (he ▸ hg)
    have hsep : g + 8 ≤ f ∨ f + 4096 ≤ g := by omega
    exact load_congr fun i hi => h.take_outside (by omega)
  · by_cases hgf : g = f
    · subst hgf
      simp [hnot, hu]
    · rw [Function.update_of_ne hgf, ← ho.free g]
      simp [hgf]
  · have htree : Tree (shape use) (h.take f).mem := by
      refine ho.tree.congr fun t r p hst hp i hi => ?_
      have htu := shape_eq_some.mp hst
      have hne : t ≠ f := by
        rintro rfl
        rw [hfree] at htu
        cases htu
      exact entry_of_page (hout (ho.page t (by rw [htu]; exact nofun)).1 hne) hi
    by_cases hk : ∃ r p, u = .table r p
    · obtain ⟨r, p, rfl⟩ := hk
      rw [shape_update_table]
      exact htree.extend hshape hpage (fun hp => hroot r (hp ▸ rfl)) fun i hi => h.take_entry f hi
    · rw [shape_update_other hshape fun r p he => hk ⟨r, p, he⟩]
      exact htree
  · refine ho.template.congr fun g hg => ?_
    have hgu := (ho.templateUse g).mp hg
    have hne : g ≠ f := by
      rintro rfl
      rw [hfree] at hgu
      cases hgu
    exact hout (ho.page g (by rw [hgu]; exact nofun)).1 hne
  · rw [ho.templateUse g]
    by_cases hgf : g = f
    · subst hgf
      simp [hfree, ht]
    · rw [Function.update_of_ne hgf]

theorem alloc_nil (ho : Owned use [] h) : pmmAllocPage h = (0, h) := by
  have h0 : h.freeStack = 0 := ho.chain
  rw [pmmAllocPage, if_pos h0]

/-- A page whose contents nothing relies on is given back. -/
theorem push {f : ℕ} (ho : Owned use fl h) (hn : use f ≠ .none) (hc : ¬ (use f).Critical)
    (ht : ∀ r p, use f ≠ .table r p) :
    Owned (Function.update use f .free) (f :: fl) (pmmFreePage h f) := by
  have hpage := ho.page f hn
  have hnot : f ∉ fl := by
    intro hf
    rw [(ho.free f).mp hf] at hc
    exact hc trivial
  have hfs : h.freeStack < 2 ^ 64 := by
    by_cases h0 : h.freeStack = 0
    · rw [h0]
      decide
    · obtain ⟨fl', -, -, hu⟩ := ho.use_head h0
      exact (ho.page _ (by rw [hu]; exact nofun)).2.2
  have hout {g : ℕ} (hg : g % 4096 = 0) (hne : g ≠ f) (a : ℕ) (h1 : g ≤ a) (h2 : a < g + 4096) :
      store64 h.mem f h.freeStack a = h.mem a := fill_outside (by omega)
  have hshape : shape use f = none := by
    cases hs : shape use f with
    | none => rfl
    | some rp => exact absurd (shape_eq_some.mp hs) (ht rp.1 rp.2)
  refine ⟨?_, ?_, List.nodup_cons.mpr ⟨hnot, ho.nodup⟩, fun g => ?_, ?_, ?_, fun g => ?_⟩
  · intro g hg
    by_cases hgf : g = f
    · exact hgf ▸ hpage
    · rw [Function.update_of_ne hgf] at hg
      exact ho.page g hg
  · refine ho.chain.push (Nat.pos_iff_ne_zero.mp hpage.2.1) (load64_store64 hfs) fun g hg => ?_
    have hgu := (ho.free g).mp hg
    have hgp := ho.page g (by rw [hgu]; exact nofun)
    have hne : g ≠ f := fun he => hnot (he ▸ hg)
    exact load_store_outside (by omega)
  · by_cases hgf : g = f
    · subst hgf
      simp
    · rw [Function.update_of_ne hgf, ← ho.free g]
      simp [hgf]
  · rw [shape_update_other hshape (by exact nofun)]
    refine ho.tree.congr fun t r p hst hp i hi => ?_
    have htu := shape_eq_some.mp hst
    have hne : t ≠ f := by
      rintro rfl
      exact ht r p htu
    exact entry_of_page (hout (ho.page t (by rw [htu]; exact nofun)).1 hne) hi
  · refine ho.template.congr fun g hg => ?_
    have hgu := (ho.templateUse g).mp hg
    have hne : g ≠ f := by
      rintro rfl
      rw [hgu] at hc
      exact hc trivial
    exact hout (ho.page g (by rw [hgu]; exact nofun)).1 hne
  · rw [ho.templateUse g]
    by_cases hgf : g = f
    · subst hgf
      simp only [Function.update_self, reduceCtorEq, iff_false]
      intro hu
      rw [hu] at hc
      exact hc trivial
    · rw [Function.update_of_ne hgf]

/-- The active root is no part of ownership. -/
theorem switch (ho : Owned use fl h) (r : ℕ) : Owned use fl (pagingSwitch h r) :=
  ⟨ho.page, ho.chain, ho.nodup, ho.free, ho.tree, ho.template, ho.templateUse⟩

end Owned

end Mukrn
