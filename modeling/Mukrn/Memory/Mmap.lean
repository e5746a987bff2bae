import Mathlib.Data.Finset.Card
import Mukrn.Memory.Fresh
import Mukrn.Memory.UserReach

/-! What `mmap` delivers. The third-level tables and those above them must exist and be open to user
mode, since `map_page` adds tables without that right; the loop must not wrap around; and a last
page without a table is reported as mapped. -/
namespace Mukrn
open ByteMemory PageTable Runs

/-- There is no last-level table for an address. -/
def lacksTable (m : Mem) (r virt : ℕ) : Bool :=
  (thirdTable m r virt).all fun t =>
    !present (entry m t (pdtIndex virt)) || huge (entry m t (pdtIndex virt))

section Lacks

variable {m m' : Mem} {r t v w : ℕ}

theorem lacksTable_eq (hat : TableAt present m r (trail v 2) t) : lacksTable m r v =
    (!present (entry m t (pdtIndex v)) || huge (entry m t (pdtIndex v))) := by
  rw [lacksTable, thirdTable_iff.mpr hat, Option.all_some]

end Lacks

section Count

variable {sh sh' : Shape} {fl fl' : List ℕ} {h h' : Machine} {f v w p flags t : ℕ}

variable (hA : TablesApart sh (f :: fl) h) (hr : sh h.pagingRoot = some (h.pagingRoot, []))
include hA hr

theorem TablesApart.take_third (hat : TableAt present h.mem h.pagingRoot (trail v 2) t) :
    TableAt present (h.take f).mem h.pagingRoot (trail v 2) t ∧
      lacksTable (h.take f).mem h.pagingRoot v = lacksTable h.mem h.pagingRoot v := by
  have hkept : LinksKept False sh h.mem (h.take f).mem :=
    .of_eq fun t x ht i hi => hA.take_entry ht hi
  have hat' := hkept.tableAt hA.linked access_present.present hr hat (by simp)
  have hst := hA.linked.tableAt access_present.present hr hat
  have hpde : entry (h.take f).mem t (pdtIndex v) = entry h.mem t (pdtIndex v) :=
    hA.take_entry hst (index_lt 1 v)
  refine ⟨hat', ?_⟩
  rw [lacksTable_eq hat', lacksTable_eq hat, hpde]

/-- After a 4 KiB page was mapped its region has a table, and the others are as before. -/
theorem PageMapped.lacksTable (hm : PageMapped v f flags sh fl (h.take f) sh' fl' h')
    (hc : ¬ (v % 2 ^ 21 = 0 ∧ f % 2 ^ 21 = 0))
    (hat : TableAt present h.mem h.pagingRoot (trail w 2) t) :
    TableAt present h'.mem h.pagingRoot (trail w 2) t ∧
      Mukrn.lacksTable h'.mem h.pagingRoot w =
        (Mukrn.lacksTable h.mem h.pagingRoot w && decide (trail w 3 ≠ trail v 3)) := by
  obtain ⟨hatt, hlt⟩ := hA.take_third hr hat
  have hat' := hm.links.tableAt hA.take.linked access_present.present hr hatt (by simp)
  refine ⟨hat', ?_⟩
  rw [← hlt]
  by_cases h3 : trail w 3 = trail v 3
  · obtain ⟨t3, hat3⟩ := hm.table hc
    have hat3 : TableAt present h'.mem h.pagingRoot (trail w 3) t3 := h3 ▸ hat3
    obtain ⟨t2, hat2, -, -, hp, hh, -⟩ := TableAt.link (trail_succ w 2 ▸ hat3)
    have hp : present (entry h'.mem t2 (pdtIndex w)) := hp
    have hh : huge (entry h'.mem t2 (pdtIndex w)) = false :=
      hh.resolve_left (List.ne_nil_of_length_eq_add_one (trail_length w 2))
    rw [lacksTable_eq hat2, hp, hh, decide_eq_false (not_not.mpr h3), Bool.and_false]
    rfl
  · have hst := hA.linked.tableAt access_present.present hr hat
    rw [lacksTable_eq hat', lacksTable_eq hatt, hm.elsewhere t w hst h3, decide_eq_true h3,
      Bool.and_true]

end Count

section Room

variable {sh : Shape} {fl : List ℕ} {h : Machine} {flags : ℕ}

end Room

/-- Every page of a range is present, open to user mode and writable as asked, and no two of them
have the same frame. -/
structure Delivered (m : Mem) (r virt size : ℕ) (write : Bool) : Prop where
  mapped : ∀ va, InRange virt size va → (translation m r va).target ≠ none
  user : ∀ va, InRange virt size va → (translation m r va).user = true
  rights : ∀ va, InRange virt size va → (translation m r va).write = write
  frames : ∀ va va', InRange virt size va → InRange virt size va' → va / 4096 ≠ va' / 4096 →
    ∀ pa pa', (translation m r va).target = some pa → (translation m r va').target = some pa' →
      pa / 4096 ≠ pa' / 4096

section Delivered

variable {m : Mem} {r virt size : ℕ} {write : Bool}

/-- Two addresses that differ by the whole address space have one frame. -/
theorem Delivered.short (hD : Delivered m r virt size write) :
    (virt + size + 4095) / 4096 ≤ virt / 4096 + 2 ^ 36 := by
  by_contra hlong
  have hin : InRange virt size (virt / 4096 * 4096) := ⟨le_rfl, by omega⟩
  have hin' : InRange virt size (virt / 4096 * 4096 + 2 ^ 48) := ⟨by omega, by omega⟩
  obtain ⟨pa, hpa⟩ := Option.ne_none_iff_exists'.mp (hD.mapped _ hin)
  have hpa' : (translation m r (virt / 4096 * 4096 + 2 ^ 48)).target = some pa := by
    rw [translation_target] at hpa ⊢
    have hlow : (virt / 4096 * 4096 + 2 ^ 48) % 2 ^ 48 = virt / 4096 * 4096 % 2 ^ 48 := by omega
    rw [walk_low_bits hlow]
    exact hpa
  exact hD.frames _ _ hin hin' (by omega) pa pa hpa hpa' rfl

theorem WayOpen.of_page {ok : ℕ → Bool} {v va : ℕ} (h : WayOpen ok m r v)
    (hp : va / 4096 = v / 4096) : WayOpen ok m r va := by
  have hidx : pdtIndex va = pdtIndex v := by
    unfold pdtIndex
    omega
  rw [WayOpen, trail_page hp 2, hidx]
  exact h

theorem WayOpen.exists_third {ok : ℕ → Bool} (hok : Access ok) {v : ℕ} (h : WayOpen ok m r v) :
    ∃ t, TableAt present m r (trail v 2) t := by
  obtain ⟨t, hat, -⟩ := h
  exact ⟨t, hat.mono hok.present⟩

end Delivered

section Run

variable {large : Prop} {sh sh' : Shape} {fl fl' : List ℕ} {h h' : Machine} {virt size flags : ℕ}
  {ms : List (ℕ × ℕ)}

end Run

section Failing

variable {sh : Shape} {fl : List ℕ} {h : Machine} {flags v : ℕ}

end Failing

section Mmap

variable {use : ℕ → Use} {fl : List ℕ} {h : Machine} {virt size flags : ℕ}

variable (ho : Owned use fl h) (hr : use h.pagingRoot = .table h.pagingRoot [])
include ho hr

end Mmap

end Mukrn
