import Mukrn.Memory.Active
import Mukrn.Memory.Load

/-! Pages mapped to fresh frames one after the other, as `mmap`, `brk` and the loaders do it: the
leaves that they end up with, and the free pages that this takes. -/
namespace Mukrn
open ByteMemory PageTable

/-- At most `n` pages were taken from the free list. -/
def Spent (n : ℕ) (fl fl' : List ℕ) : Prop := ∃ taken, taken.length ≤ n ∧ fl = taken ++ fl'

namespace Spent

variable {n n' : ℕ} {fl fl' fl'' : List ℕ}

/-- The next pages were among the next pages before. -/
theorem mem_take (h : Spent n fl fl') {k f : ℕ} (hf : f ∈ fl'.take k) : f ∈ fl.take (n + k) := by
  obtain ⟨a, ha, rfl⟩ := h
  rw [List.take_append, List.take_of_length_le (by omega)]
  exact List.mem_append_right a (List.take_subset_take_left fl' (by omega) hf)

end Spent

/-- None of the next `n` free frames starts a 2 MiB page. -/
def NoLarge (n : ℕ) (fl : List ℕ) : Prop := ∀ f ∈ fl.take n, f % 2 ^ 21 ≠ 0

theorem NoLarge.mono {n k : ℕ} {fl : List ℕ} (hno : NoLarge n fl) (h : k ≤ n) : NoLarge k fl :=
  fun f hf => hno f (List.take_subset_take_left fl h hf)

/-- The free pages that `mapFresh` takes for frames and tables when there are enough of them. -/
def freshTaken (flags : ℕ) : Machine → List ℕ → ℕ
  | _, [] => 0
  | h, v :: vs =>
    let (page, h) := pmmAllocPage h
    1 + missingTables h v page + freshTaken flags (mapPage h v page flags) vs

theorem freshTaken_pos (flags : ℕ) (h : Machine) (v : ℕ) (vs : List ℕ) :
    0 < freshTaken flags h (v :: vs) := by
  simp only [freshTaken]
  omega

theorem freshTaken_le (flags : ℕ) (h : Machine) (vs : List ℕ) :
    freshTaken flags h vs ≤ 4 * vs.length := by
  induction vs generalizing h with
  | nil => exact Nat.le_refl 0
  | cons v vs ih =>
    have hle := missingTables_le (pmmAllocPage h).2 v (pmmAllocPage h).1
    have hrest := ih (mapPage (pmmAllocPage h).2 v (pmmAllocPage h).1 flags)
    simp only [freshTaken, List.length_cons]
    omega

section Take

variable {sh : Shape} {fl : List ℕ} {h : Machine} {f : ℕ} (hA : TablesApart sh (f :: fl) h)
include hA

theorem TablesApart.take_leads {r va pa bits : ℕ} (hr : sh r = some (r, []))
    (hl : Leads h.mem r va pa bits) : Leads (h.take f).mem r va pa bits := by
  obtain ⟨l, e, hleaf, hpa⟩ := hl
  exact ⟨l, e, hleaf.congr hA.linked hr fun t j _ ht => hA.take_entry ht (index_lt _ va), hpa⟩

theorem TablesApart.fresh_cons (flags v : ℕ) (vs : List ℕ) :
    mapFresh flags h (v :: vs) = mapFresh flags (mapPage (h.take f) v f flags) vs ∧
    freshMaps flags h (v :: vs) = (v, f) :: freshMaps flags (mapPage (h.take f) v f flags) vs ∧
    freshTaken flags h (v :: vs) = 1 + missingTables (h.take f) v f +
      freshTaken flags (mapPage (h.take f) v f flags) vs := by
  simp only [mapFresh, freshMaps, freshTaken, hA.alloc_eq, if_neg hA.chain.2.1, and_self]

end Take

/-- Pages were mapped to fresh frames, in the order of the list. -/
structure FreshRun (large : Prop) (flags : ℕ) (ms : List (ℕ × ℕ)) (sh : Shape) (fl : List ℕ)
    (h : Machine) (sh' : Shape) (fl' : List ℕ) (h' : Machine) : Prop where
  apart : TablesApart sh' fl' h'
  keeps : ∀ t x, sh t = some x → sh' t = some x
  root : h'.pagingRoot = h.pagingRoot
  frames : (ms.map Prod.snd ++ fl').Sublist fl
  size : ∀ p ∈ ms, p.2 % 2 ^ 21 = 0 → large
  leads : ∀ p ∈ ms, Leads h'.mem h.pagingRoot p.1 (p.2 + p.1 % 4096) flags
  other : ∀ va pa bits, ¬ TouchedBy ms va → Leads h.mem h.pagingRoot va pa bits →
    Leads h'.mem h.pagingRoot va pa bits
  links : LinksKept large sh h.mem h'.mem

section Run

variable {sh : Shape} {fl : List ℕ} {h : Machine} {flags : ℕ}

/-- One page, mapped to the first free page. -/
theorem mapPage_fresh {f : ℕ} (v : ℕ) (hA : TablesApart sh (f :: fl) h)
    (hr : sh h.pagingRoot = some (h.pagingRoot, [])) (hf : flags < 128) (hpf : present flags)
    (hn : missingTables (h.take f) v f ≤ fl.length) :
    ∃ sh' fl', PageMapped v f flags sh fl (h.take f) sh' fl' (mapPage (h.take f) v f flags) ∧
      Spent 4 (f :: fl) fl' := by
  obtain ⟨hf0, hf64⟩ := hA.page f List.mem_cons_self
  obtain ⟨sh', fl', hm⟩ := mapPage_mapped v hA.take hr hf0 hf64 hf hpf hn
  refine ⟨sh', fl', hm, ?_⟩
  obtain ⟨taken, hfl⟩ := hm.rest
  have hle := missingTables_le (h.take f) v f
  have hused := hm.used
  refine ⟨f :: taken, ?_, by rw [← hfl, List.cons_append]⟩
  rw [← hfl, List.length_append] at hused
  rw [List.length_cons]
  omega

/-- With enough free pages the loop gets a frame for each page. -/
theorem mapFresh_ok (hA : TablesApart sh fl h) (hr : sh h.pagingRoot = some (h.pagingRoot, []))
    (hf : flags < 128) (hpf : present flags) {vs : List ℕ}
    (hroom : freshTaken flags h vs ≤ fl.length) : (mapFresh flags h vs).1 = true := by
  induction vs generalizing sh fl h with
  | nil => rfl
  | cons v vs ih =>
    cases fl with
    | nil => exact absurd hroom (Nat.not_le.mpr (freshTaken_pos flags h v vs))
    | cons f fl =>
      obtain ⟨hmap, -, htaken⟩ := hA.fresh_cons flags v vs
      rw [htaken, List.length_cons] at hroom
      obtain ⟨sh1, fl1, hm, -⟩ := mapPage_fresh v hA hr hf hpf (by omega)
      have hused := hm.used
      rw [hmap]
      exact ih hm.apart (by rw [hm.root]; exact hm.keeps _ _ hr) (by omega)

/-- With enough free pages every page of the list gets its frame and keeps it, when they are all
different and no 2 MiB page is mapped over one of them. -/
theorem mapFresh_run (large : Prop) (hA : TablesApart sh fl h)
    (hr : sh h.pagingRoot = some (h.pagingRoot, [])) (hf : flags < 128) (hpf : present flags)
    {vs : List ℕ}
    (hlarge : ∀ f ∈ fl.take (4 * vs.length), f % 2 ^ 21 = 0 → large)
    (hsep : vs.Pairwise fun u v =>
      trail u 4 ≠ trail v 4 ∧ (large → v % 2 ^ 21 = 0 → trail u 3 ≠ trail v 3))
    (hroom : freshTaken flags h vs ≤ fl.length) :
    (mapFresh flags h vs).1 = true ∧ (freshMaps flags h vs).map Prod.fst = vs ∧ ∃ sh' fl',
      FreshRun large flags (freshMaps flags h vs) sh fl h sh' fl' (mapFresh flags h vs).2 ∧
        fl.length = fl'.length + freshTaken flags h vs := by
  induction vs generalizing sh fl h with
  | nil =>
    refine ⟨rfl, rfl, sh, fl, ⟨hA, fun _ _ hx => hx, rfl, List.Sublist.refl fl,
      fun p hp => absurd hp List.not_mem_nil, fun p hp => absurd hp List.not_mem_nil,
      fun _ _ _ _ hl => hl, .of_eq fun _ _ _ _ _ => rfl⟩, rfl⟩
  | cons v vs ih =>
    cases fl with
    | nil => exact absurd hroom (Nat.not_le.mpr (freshTaken_pos flags h v vs))
    | cons f fl =>
      obtain ⟨hmap, hmaps, htaken⟩ := hA.fresh_cons flags v vs
      rw [htaken] at hroom ⊢
      rw [hmap, hmaps]
      rw [List.length_cons] at hroom
      obtain ⟨hbelow, hsep⟩ := List.pairwise_cons.mp hsep
      obtain ⟨sh1, fl1, hm, hspent⟩ := mapPage_fresh v hA hr hf hpf (by omega)
      have hused := hm.used
      have hhead : f % 2 ^ 21 = 0 → large := by
        refine hlarge f ?_
        rw [List.length_cons, Nat.mul_add, List.take_succ_cons]
        exact List.mem_cons_self
      have hroot : (h.take f).pagingRoot = h.pagingRoot := rfl
      have hself := hm.self
      have hother := hm.other
      rw [hroot] at hself hother
      generalize mapPage (h.take f) v f flags = h1 at hm hroom hself hother ⊢
      obtain ⟨hok, hfst, sh', fl', hrun, hlen⟩ := ih hm.apart
        (by rw [hm.root]; exact hm.keeps _ _ hr)
        (fun g hg => hlarge g (by
          have hmem := hspent.mem_take hg
          rwa [List.length_cons, Nat.mul_add, Nat.add_comm])) hsep (by omega)
      have hroot1 : h1.pagingRoot = h.pagingRoot := hm.root
      have hleads := hrun.leads
      have hkept := hrun.other
      rw [hroot1] at hleads hkept
      refine ⟨hok, by rw [List.map_cons, hfst], sh', fl', ⟨hrun.apart,
        fun t x hx => hrun.keeps t x (hm.keeps t x hx), hrun.root.trans hm.root, ?_, fun p hp => ?_,
        fun p hp => ?_, fun va pa bits hva hl => ?_, ?_⟩, by rw [List.length_cons]; omega⟩
      · rw [List.map_cons, List.cons_append]
        exact (hrun.frames.trans hm.rest.sublist).cons_cons f
      · rcases List.mem_cons.mp hp with rfl | hp
        · exact hhead
        · exact hrun.size p hp
      · rcases List.mem_cons.mp hp with rfl | hp
        · refine hkept v _ _ ?_ hself
          -- a later page is another one, and a 2 MiB page is mapped in another region
          rintro ⟨q, hq, htouch⟩
          have hqv : q.1 ∈ vs := by
            rw [← hfst]
            exact List.mem_map_of_mem hq
          obtain ⟨h4, h3⟩ := hbelow q.1 hqv
          rcases htouch with heq | ⟨⟨hc, hq0⟩, heq⟩
          · exact h4 heq
          · exact h3 (hrun.size q hq hq0) hc heq
        · exact hleads p hp
      · apply hkept va pa bits
        · rintro ⟨q, hq, ht⟩
          exact hva ⟨q, List.mem_cons_of_mem _ hq, ht⟩
        exact hother va pa bits (fun ht => hva ⟨(v, f), List.mem_cons_self, ht⟩)
          (hA.take_leads hr hl)
      · have hlinks : LinksKept large sh h.mem h1.mem :=
          (LinksKept.of_eq fun t x ht i hi => hA.take_entry ht hi).trans (fun _ _ hx => hx)
            (hm.links.mono fun hc => hhead hc.2)
        exact hlinks.trans hm.keeps hrun.links

end Run

end Mukrn
