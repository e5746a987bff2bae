import Mathlib.Data.Finset.Basic
import Mathlib.Data.Finset.Lattice.Lemmas
import Mukrn.Library.Runs
import Mukrn.Memory.FreeList

/-! The page allocator as a pool of frames. A client allocates frames, writes into the frames it
holds and gives them back; the list threaded through the free frames represents the rest. -/
namespace Mukrn
open ByteMemory LinkedStack Runs

/-- A fixed set of items, each of them free or held. -/
structure Pool {α : Type*} [DecidableEq α] (all : Finset α) where
  free : Finset α
  held : Finset α
  disjoint : Disjoint free held
  union : free ∪ held = all

namespace Pool

variable {α : Type*} [DecidableEq α] {all : Finset α}

def start (all : Finset α) : Pool all where
  free := all
  held := ∅
  disjoint := Finset.disjoint_empty_right all
  union := Finset.union_empty all

def take (p : Pool all) (f : α) (hf : f ∈ p.free) : Pool all where
  free := p.free.erase f
  held := insert f p.held
  disjoint := by
    rw [Finset.disjoint_insert_right]
    exact ⟨Finset.notMem_erase f p.free, p.disjoint.mono_left (Finset.erase_subset f p.free)⟩
  union := by rw [Finset.union_insert, ← Finset.insert_union, Finset.insert_erase hf, p.union]

def give (p : Pool all) (f : α) (hf : f ∈ p.held) : Pool all where
  free := insert f p.free
  held := p.held.erase f
  disjoint := by
    rw [Finset.disjoint_insert_left]
    exact ⟨Finset.notMem_erase f p.held, p.disjoint.mono_right (Finset.erase_subset f p.held)⟩
  union := by rw [Finset.insert_union, ← Finset.union_insert, Finset.insert_erase hf, p.union]

theorem mem_iff (p : Pool all) (f : α) : f ∈ all ↔ f ∈ p.free ∨ f ∈ p.held := by
  rw [← Finset.mem_union, p.union]

theorem not_mem_held (p : Pool all) {f : α} (hf : f ∈ p.free) : f ∉ p.held :=
  Finset.disjoint_left.mp p.disjoint hf

end Pool

/-- What a client of the allocator does. -/
inductive PmmOp where
  | alloc
  | free (addr : ℕ)
  | write (addr : ℕ) (b : UInt8)
  deriving DecidableEq

/-- The machine and the frames that are allocated. -/
structure Client where
  machine : Machine
  held : Finset ℕ

namespace Client

/-- A client frees frames it holds and writes inside them. -/
def step (c : Client) : PmmOp → Option Client
  | .alloc =>
    let (page, h) := pmmAllocPage c.machine
    some ⟨h, if page = 0 then c.held else insert page c.held⟩
  | .free addr =>
    if addr ∈ c.held then some ⟨pmmFreePage c.machine addr, c.held.erase addr⟩ else none
  | .write addr b =>
    if addr / 4096 * 4096 ∈ c.held then
      some { c with machine := { c.machine with mem := Function.update c.machine.mem addr b } }
    else none

end Client

/-- What an operation may do to a pool: an allocation takes any free frame. -/
inductive PoolStep {all : Finset ℕ} (p : Pool all) : PmmOp → Pool all → Prop
  | take (f : ℕ) (hf : f ∈ p.free) : PoolStep p .alloc (p.take f hf)
  | exhausted (h : p.free = ∅) : PoolStep p .alloc p
  | give (f : ℕ) (hf : f ∈ p.held) : PoolStep p (.free f) (p.give f hf)
  | write (addr : ℕ) (b : UInt8) : PoolStep p (.write addr b) p

/-- The frames on the free list are the free ones of the pool. -/
structure Represents {all : Finset ℕ} (c : Client) (fl : List ℕ) (p : Pool all) : Prop where
  list : FreeList c.machine fl
  free : ∀ f, f ∈ fl ↔ f ∈ p.free
  held : c.held = p.held

section Refinement

variable {all : Finset ℕ} {c c' : Client} {fl : List ℕ} {p : Pool all}

/-- An empty list has no frame to give; otherwise its first frame is cleared and handed out. -/
theorem Represents.pmmAllocPage (h : Represents c fl p) :
    (pmmAllocPage c.machine = (0, c.machine) ∧ p.free = ∅) ∨
      ∃ f fl', fl = f :: fl' ∧ pmmAllocPage c.machine = (f, c.machine.take f) ∧ f ≠ 0 ∧
        f ∈ p.free := by
  cases fl with
  | nil =>
    left
    constructor
    · exact h.list.alloc_nil
    · apply Finset.eq_empty_of_forall_notMem
      intro f hf
      rw [← h.free] at hf
      cases hf
  | cons f fl =>
    right
    exact ⟨f, fl, rfl, h.list.alloc_cons, (h.list.pos List.mem_cons_self).ne',
      (h.free f).mp List.mem_cons_self⟩

theorem Represents.take {f : ℕ} (h : Represents c (f :: fl) p) (hf : f ∈ p.free) :
    Represents ⟨c.machine.take f, insert f c.held⟩ fl (p.take f hf) := by
  obtain ⟨hn, -⟩ := List.nodup_cons.mp h.list.nodup
  refine ⟨h.list.take, ?_, ?_⟩
  · intro g
    simp only [Pool.take, Finset.mem_erase, ← h.free g, List.mem_cons]
    constructor
    · intro hg
      exact ⟨fun he => hn (he ▸ hg), .inr hg⟩
    · rintro ⟨hne, hg⟩
      exact hg.resolve_left hne
  · simp only [Pool.take, h.held]

theorem Represents.give {f : ℕ} (h : Represents c fl p) (hf : f ∈ p.held)
    (hpage : f % 4096 = 0 ∧ 0 < f ∧ f < 2 ^ 64) :
    Represents ⟨pmmFreePage c.machine f, c.held.erase f⟩ (f :: fl) (p.give f hf) := by
  have hfl : f ∉ fl := fun hm => p.not_mem_held ((h.free f).mp hm) hf
  refine ⟨h.list.push ⟨hpage.1, hpage.2.2⟩ hpage.2.1 hfl, ?_, ?_⟩
  · intro g
    simp only [Pool.give, Finset.mem_insert, ← h.free g, List.mem_cons]
  · simp only [Pool.give, h.held]

theorem Represents.write (h : Represents c fl p) {a : ℕ} (ha : a / 4096 * 4096 ∈ p.held)
    (b : UInt8) :
    Represents { c with machine := { c.machine with mem := Function.update c.machine.mem a b } }
    fl p := by
  refine ⟨h.list.congr rfl ?_, h.free, h.held⟩
  intro g hg x h1 h2
  apply Function.update_of_ne
  have hal := h.list.page g hg
  have hne : g ≠ a / 4096 * 4096 := fun he => p.not_mem_held ((h.free g).mp hg) (he ▸ ha)
  omega

variable (hpage : ∀ f ∈ all, f % 4096 = 0 ∧ 0 < f ∧ f < 2 ^ 64)
include hpage

/-- Each operation does to the frames what the pool allows. -/
theorem Represents.step {op : PmmOp} (h : Represents c fl p) (hs : c.step op = some c') :
    ∃ fl' p', PoolStep p op p' ∧ Represents c' fl' p' := by
  cases op with
  | alloc =>
    rcases h.pmmAllocPage with ⟨heq, hfree⟩ | ⟨f, fl', rfl, heq, h0, hf⟩
    · simp only [Client.step, heq, if_true, Option.some.injEq] at hs
      subst hs
      exact ⟨fl, p, .exhausted hfree, h⟩
    · simp only [Client.step, heq, if_neg h0, Option.some.injEq] at hs
      subst hs
      exact ⟨fl', _, .take _ hf, h.take hf⟩
  | free f =>
    simp only [Client.step] at hs
    split at hs
    next hf =>
      obtain rfl := Option.some.inj hs
      rw [h.held] at hf
      exact ⟨_, _, .give f hf, h.give hf (hpage f ((p.mem_iff f).mpr (.inr hf)))⟩
    · cases hs
  | write a b =>
    simp only [Client.step] at hs
    split at hs
    next ha =>
      obtain rfl := Option.some.inj hs
      rw [h.held] at ha
      exact ⟨fl, p, .write a b, h.write ha b⟩
    · cases hs

/-- Along every history the frames are those of some pool. -/
theorem Represents.reach {ok : Client → PmmOp → Prop} (h : Represents c fl p)
    (hc : Reach Client.step ok c c') : ∃ fl', ∃ p' : Pool all, Represents c' fl' p' := by
  apply hc.invariant (P := fun c => ∃ fl', ∃ p' : Pool all, Represents c fl' p') ⟨fl, p, h⟩
  rintro c op c' ⟨fl, p, h⟩ - hs
  obtain ⟨fl', p', -, h'⟩ := h.step hpage hs
  exact ⟨fl', p', h'⟩

end Refinement

/-- From a free list without repetitions, along every history of allocations, of frees of allocated
frames and of writes into them: the free and the allocated frames partition the initial ones, an
allocation fails exactly when all of them are allocated, and otherwise it returns a frame that is
not allocated and holds zeros only. -/
theorem pmm_refines_pool {h : Machine} {fl : List ℕ} {c : Client}
    (hpage : ∀ f ∈ fl, f % 4096 = 0 ∧ f < 2 ^ 64)
    (hchain : Chain (load64 h.mem) 0 h.freeStack fl) (hnd : fl.Nodup)
    (hc : Reach Client.step anyStep ⟨h, ∅⟩ c) :
    (∃ free, Chain (load64 c.machine.mem) 0 c.machine.freeStack free ∧ free.Nodup ∧
      (∀ f, f ∈ fl ↔ f ∈ free ∨ f ∈ c.held) ∧ ∀ f ∈ free, f ∉ c.held) ∧
    ((pmmAllocPage c.machine).1 = 0 ↔ ∀ f ∈ fl, f ∈ c.held) ∧
    ((pmmAllocPage c.machine).1 ≠ 0 →
      (pmmAllocPage c.machine).1 ∈ fl ∧ (pmmAllocPage c.machine).1 ∉ c.held ∧
      ∀ i < 4096, (pmmAllocPage c.machine).2.mem ((pmmAllocPage c.machine).1 + i) = 0) := by
  have hall : ∀ f ∈ fl.toFinset, f % 4096 = 0 ∧ 0 < f ∧ f < 2 ^ 64 := by
    intro f hf
    have hf := List.mem_toFinset.mp hf
    exact ⟨(hpage f hf).1, Nat.pos_of_ne_zero (hchain.ne_nil f hf), (hpage f hf).2⟩
  have hstart : Represents ⟨h, ∅⟩ fl (Pool.start fl.toFinset) :=
    ⟨⟨hchain, hnd, hpage⟩, fun _ => List.mem_toFinset.symm, rfl⟩
  obtain ⟨free, p, hr⟩ := hstart.reach hall hc
  have hmem (f : ℕ) : f ∈ fl ↔ f ∈ p.free ∨ f ∈ c.held := by
    rw [hr.held, ← p.mem_iff, List.mem_toFinset]
  refine ⟨⟨free, hr.list.chain, hr.list.nodup, ?_, ?_⟩, ?_⟩
  · intro f
    rw [hmem, hr.free]
  · intro f hf
    rw [hr.held]
    exact p.not_mem_held ((hr.free f).mp hf)
  · rcases hr.pmmAllocPage with ⟨heq, hnone⟩ | ⟨f, -, -, heq, h0, hf⟩
    · rw [heq]
      constructor
      · simp only [true_iff]
        intro f hf
        have hf := (hmem f).mp hf
        rw [hnone] at hf
        exact hf.resolve_left (Finset.notMem_empty f)
      · intro hn
        exact absurd rfl hn
    · have hheld : f ∉ c.held := by
        rw [hr.held]
        exact p.not_mem_held hf
      rw [heq]
      constructor
      · constructor
        · intro he
          exact absurd he h0
        · intro hfull
          exact absurd (hfull f ((hmem f).mpr (.inl hf))) hheld
      · intro _
        refine ⟨(hmem f).mpr (.inl hf), hheld, ?_⟩
        intro i hi
        change fill c.machine.mem f 4096 (fun _ => 0) (f + i) = 0
        exact fill_inside (Nat.le_add_right f i) (by omega)

/-- The only free frame is allocated and written; the next allocation fails. -/
theorem pmm_refines_pool_sample : ∃ h fl c, (∀ f ∈ fl, f % 4096 = 0 ∧ f < 2 ^ 64) ∧
    Chain (load64 h.mem) 0 h.freeStack fl ∧ fl.Nodup ∧ Reach Client.step anyStep ⟨h, ∅⟩ c ∧
    c.machine.mem 0x1008 = 7 ∧ (pmmAllocPage c.machine).1 = 0 := by
  let h : Machine := ⟨fun _ => 0, 0x1000, 0⟩
  let c1 : Client := ⟨h.take 0x1000, {0x1000}⟩
  let c2 : Client := ⟨{ h.take 0x1000 with mem := Function.update (h.take 0x1000).mem 0x1008 7 },
    {0x1000}⟩
  have hpage : ∀ f ∈ [0x1000], f % 4096 = 0 ∧ f < 2 ^ 64 := by decide
  have hlink : load64 (fun _ => 0) 0x1000 = 0 := by simp [load]
  have hchain : Chain (load64 h.mem) 0 h.freeStack [0x1000] := ⟨rfl, by decide, hlink⟩
  have halloc : Client.step ⟨h, ∅⟩ .alloc = some c1 := rfl
  have hwrite : c1.step (.write 0x1008 7) = some c2 := rfl
  have hrun : Reach Client.step anyStep ⟨h, ∅⟩ c2 :=
    .tail (.tail .refl trivial halloc) trivial hwrite
  have hnd : [0x1000].Nodup := by decide
  refine ⟨h, [0x1000], c2, hpage, hchain, hnd, hrun, rfl, ?_⟩
  apply (pmm_refines_pool hpage hchain hnd hrun).2.1.mpr
  decide

end Mukrn
