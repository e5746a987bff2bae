import Mukrn.Memory.Tables
import Mukrn.Table.Root

/-! Address spaces: the copy of the boot template, and pages backed by fresh frames. -/
namespace Mukrn
open ByteMemory PageTable

section

variable {use use' : ℕ → Use} {fl fl' : List ℕ} {h h' : Machine}

/-- The uses of the three pages of a copied template. -/
private def cloneUse (use : ℕ → Use) (f1 f2 f3 : ℕ) : ℕ → Use :=
  Function.update (Function.update (Function.update use f1 (.table f1 [])) f2 (.table f1 [0])) f3
    (.table f1 [0, 0])

/-- Three cleared pages linked and filled as the template's tables are. -/
private def fillClone (h : Machine) (f1 f2 f3 : ℕ) : Machine :=
  let h5 := setEntry (setEntry h f1 0 (f2 ||| 7)) f2 0 (f3 ||| 7)
  { h5 with mem := storeWords h5.mem f3 512 fun i => clearUser (entry h5.mem 0x3000 i) }

private theorem fillClone_outside (h : Machine) {f1 f2 f3 a : ℕ} (h1 : a < f1 ∨ f1 + 4096 ≤ a)
    (h2 : a < f2 ∨ f2 + 4096 ≤ a) (h3 : a < f3 ∨ f3 + 4096 ≤ a) :
    (fillClone h f1 f2 f3).mem a = h.mem a := by
  have hwords {m : Mem} {w : ℕ → ℕ} : storeWords m f3 512 w a = m a :=
    storeWords_outside (n := 512) h3
  simp only [fillClone]
  rw [hwords, setEntry_outside _ _ (by decide) h2, setEntry_outside _ _ (by decide) h1]

private theorem clearUser_template (i : ℕ) :
    clearUser (0x83 + 0x200000 * i) = 0x83 + 0x200000 * i := by
  have hbit : (0x83 + 0x200000 * i) / 4 % 2 = 0 := by omega
  rw [clearUser, hbit, Nat.zero_mul, Nat.sub_zero]

private theorem entryOk_template (sh : Shape) (r i k : ℕ) :
    EntryOk sh r [0, 0] i (0x83 + 0x200000 * k) := by
  have hp : present (0x83 + 0x200000 * k) = true := by
    simp only [present, beq_iff_eq]
    omega
  have hh : huge (0x83 + 0x200000 * k) = true := by
    simp only [huge, beq_iff_eq]
    omega
  refine ⟨by simp, fun _ hn => absurd ⟨rfl, hh⟩ hn, fun _ hn => ?_⟩
  rw [hp] at hn
  cases hn

section Identity

variable {ok : ℕ → Bool} {m : Mem} {r e1 e2 va : ℕ}

private theorem leaf_template (va : ℕ) :
    leaf 1 (0x83 + 0x200000 * index 1 va) va = va % 2 ^ 30 := by
  simp only [leaf, index, Nat.mul_one, Nat.reduceAdd]
  omega

/-- The first gigabyte under a root whose first entries lead to 512 identity leaves. -/
private theorem walk_first (ha : Access ok) (h1 : entry m r 0 = e1) (hb1 : e1 % 8 = 7)
    (h2 : entry m (frameOf e1) 0 = e2) (hb2 : e2 % 8 = 7) (hh2 : huge e2 = false)
    (h3 : ∀ i < 512, entry m (frameOf e2) i = 0x83 + 0x200000 * i)
    (hva : va / 2 ^ 30 % 2 ^ 18 = 0) :
    walk ok m va 3 r = if ok 3 then some (va % 2 ^ 30) else none := by
  have hi3 : index 3 va = 0 := by
    simp only [index]
    omega
  have hi2 : index 2 va = 0 := by
    simp only [index]
    omega
  have hok1 : ok e1 = true := by
    rw [ha.bits, hb1]
    exact ha.full
  have hok2 : ok e2 = true := by
    rw [ha.bits, hb2]
    exact ha.full
  have hleaf := h3 _ (index_lt 1 va)
  have hbits : ok (0x83 + 0x200000 * index 1 va) = ok 3 := by
    rw [ha.bits, show (0x83 + 0x200000 * index 1 va) % 8 = 3 by omega]
  have hhuge : huge (0x83 + 0x200000 * index 1 va) = true := by
    simp only [huge, beq_iff_eq]
    omega
  have hpd : PageTable.walk ok m va 1 (frameOf e2) = if ok 3 then some (va % 2 ^ 30) else none := by
    simp only [PageTable.walk, Nat.zero_add, hleaf, hbits, hhuge, leaf_template]
    cases ok 3 <;> rfl
  simpa [PageTable.walk, hi3, hi2, h1, h2, hh2, hok1, hok2] using hpd

/-- The boot template is the identity on the first gigabyte. -/
theorem Template.walk (hT : Template m) (ha : Access ok) (hva : va / 2 ^ 30 % 2 ^ 18 = 0) :
    walk ok m va 3 kernelPml4Template = if ok 3 then some (va % 2 ^ 30) else none :=
  walk_first ha hT.pml4 rfl hT.pdpt rfl rfl hT.pdt hva

/-- What a copy of the template translates: the first gigabyte, and for the supervisor only. -/
def templateWalk (ok : ℕ → Bool) (va : ℕ) : Option ℕ :=
  if ok 3 ∧ va / 2 ^ 30 % 2 ^ 18 = 0 then some (va % 2 ^ 30) else none

/-- The entries of a root and its two tables that were copied from the template. -/
structure Copied (m : Mem) (f1 f2 f3 : ℕ) : Prop where
  aligned : f2 % 4096 = 0 ∧ f3 % 4096 = 0
  pml4 : ∀ i < 512, entry m f1 i = if i = 0 then f2 ||| 7 else 0
  pdpt : ∀ i < 512, entry m f2 i = if i = 0 then f3 ||| 7 else 0
  pdt : ∀ i < 512, entry m f3 i = 0x83 + 0x200000 * i

/-- A link with all rights leads to its table. -/
theorem full_link {g : ℕ} (hg : g % 4096 = 0) :
    (g ||| 7) % 8 = 7 ∧ huge (g ||| 7) = false ∧ frameOf (g ||| 7) = g := by
  refine ⟨?_, ?_, frameOf_or hg (by decide)⟩
  · rw [or_eq_add hg (by decide)]
    omega
  · rw [huge_or hg (by decide)]
    rfl

/-- The copy translates as the template does. -/
private theorem Copied.walk {f1 f2 f3 : ℕ} (hc : Copied m f1 f2 f3) (ha : Access ok) (va : ℕ) :
    walk ok m va 3 f1 = templateWalk ok va := by
  obtain ⟨hb2, -, hf2⟩ := full_link hc.aligned.1
  obtain ⟨hb3, hh3, hf3⟩ := full_link hc.aligned.2
  have h1 : entry m f1 0 = f2 ||| 7 := hc.pml4 0 (by decide)
  have h2 : entry m f2 0 = f3 ||| 7 := hc.pdpt 0 (by decide)
  by_cases hva : va / 2 ^ 30 % 2 ^ 18 = 0
  · rw [walk_first ha h1 hb2 (by rw [hf2]; exact h2) hb3 hh3 (by rw [hf3]; exact hc.pdt) hva,
      templateWalk]
    simp only [hva, and_true]
  · have hno : ok 0 = false := by
      by_contra hn
      exact absurd (ha.present 0 (by simpa using hn)) (by decide)
    have hok2 : ok (f2 ||| 7) = true := by
      rw [ha.bits, hb2]
      exact ha.full
    rw [templateWalk, if_neg fun hn => hva hn.2]
    by_cases hi3 : index 3 va = 0
    · have hi2 : index 2 va ≠ 0 := by
        simp only [index] at hi3 ⊢
        omega
      have hz := hc.pdpt _ (index_lt 2 va)
      rw [if_neg hi2] at hz
      simp [PageTable.walk, hi3, h1, hok2, hf2, hz, hno]
    · have hz := hc.pml4 _ (index_lt 3 va)
      rw [if_neg hi3] at hz
      simp [PageTable.walk, hz, hno]

end Identity

section

variable {f1 f2 f3 : ℕ} (ho : Owned (cloneUse use f1 f2 f3) fl h) (h12 : f1 ≠ f2) (h13 : f1 ≠ f3)
  (h23 : f2 ≠ f3)
include ho h12 h13 h23

private theorem owned_cloneRoot :
    Owned (cloneUse use f1 f2 f3) fl (setEntry h f1 0 (f2 ||| 7)) := by
  have hu1 : cloneUse use f1 f2 f3 f1 = .table f1 [] := by simp [cloneUse, h12, h13]
  have hu2 : cloneUse use f1 f2 f3 f2 = .table f1 [0] := by simp [cloneUse, h23]
  have hp2 := ho.page f2 (by rw [hu2]; exact nofun)
  have hlink := (entryOk_link (p := []) hp2.1 (.inr rfl) (shape_eq_some.mpr hu2)).2.2
  exact ho.setEntry hu1 (by decide) (or_lt hp2.1 (by decide) hp2.2.2) fun _ => hlink

private theorem entry_fillClone {i : ℕ} (hi : i < 512) :
    entry (fillClone h f1 f2 f3).mem f1 i = (if i = 0 then f2 ||| 7 else entry h.mem f1 i) ∧
      entry (fillClone h f1 f2 f3).mem f2 i = (if i = 0 then f3 ||| 7 else entry h.mem f2 i) ∧
      entry (fillClone h f1 f2 f3).mem f3 i = 0x83 + 0x200000 * i := by
  have hu1 : cloneUse use f1 f2 f3 f1 = .table f1 [] := by simp [cloneUse, h12, h13]
  have hu2 : cloneUse use f1 f2 f3 f2 = .table f1 [0] := by simp [cloneUse, h23]
  have hu3 : cloneUse use f1 f2 f3 f3 = .table f1 [0, 0] := by simp [cloneUse]
  have hp1 := ho.page f1 (by rw [hu1]; exact nofun)
  have hp2 := ho.page f2 (by rw [hu2]; exact nofun)
  have hp3 := ho.page f3 (by rw [hu3]; exact nofun)
  have hlink := (entryOk_link (p := [0]) hp3.1 (.inr rfl) (shape_eq_some.mpr hu3)).2.2
  have ho5 := (owned_cloneRoot ho h12 h13 h23).setEntry hu2 (by decide)
    (or_lt hp3.1 (by decide) hp3.2.2) fun _ => hlink
  have hwords {g : ℕ} (hg : g % 4096 = 0) (hne : g ≠ f3) {m : Mem} {w : ℕ → ℕ} :
      entry (storeWords m f3 512 w) g i = entry m g i :=
    entry_of_page (fun a h1 h2 => storeWords_outside (n := 512) (by omega)) hi
  refine ⟨?_, ?_, ?_⟩
  · rw [fillClone, hwords hp1.1 h13]
    refine (entry_store_ne hp2.1 hp1.1 (by decide) hi fun hn => h12 hn.1).trans ?_
    split
    next h0 => rw [h0]; exact entry_store_self (or_lt hp2.1 (by decide) hp2.2.2)
    next h0 => exact entry_store_ne hp1.1 hp1.1 (by decide) hi fun hn => h0 hn.2
  · rw [fillClone, hwords hp2.1 h23]
    split
    next h0 => rw [h0]; exact entry_store_self (or_lt hp3.1 (by decide) hp3.2.2)
    next h0 =>
      exact (entry_store_ne hp2.1 hp2.1 (by decide) hi fun hn => h0 hn.2).trans
        (entry_store_ne hp1.1 hp2.1 (by decide) hi fun hn => h12 hn.1.symm)
  · rw [fillClone, entry, load64_storeWords hi, ho5.template.pdt i hi, clearUser_template,
      Nat.mod_eq_of_lt (by omega)]

private theorem owned_fillClone : Owned (cloneUse use f1 f2 f3) fl (fillClone h f1 f2 f3) := by
  have hu2 : cloneUse use f1 f2 f3 f2 = .table f1 [0] := by simp [cloneUse, h23]
  have hu3 : cloneUse use f1 f2 f3 f3 = .table f1 [0, 0] := by simp [cloneUse]
  have hp3 := ho.page f3 (by rw [hu3]; exact nofun)
  have hlink := (entryOk_link (p := [0]) hp3.1 (.inr rfl) (shape_eq_some.mpr hu3)).2.2
  have ho5 := (owned_cloneRoot ho h12 h13 h23).setEntry hu2 (by decide)
    (or_lt hp3.1 (by decide) hp3.2.2) fun _ => hlink
  refine ho5.setTable hu3 (fun a ha => storeWords_outside ha) fun _ i hi => ?_
  have hword := (entry_fillClone ho h12 h13 h23 hi).2.2
  simp only [fillClone] at hword
  rw [hword]
  exact entryOk_template ..

private theorem copied_fillClone (hz1 : ∀ i < 512, entry h.mem f1 i = 0)
    (hz2 : ∀ i < 512, entry h.mem f2 i = 0) : Copied (fillClone h f1 f2 f3).mem f1 f2 f3 := by
  have hu2 : cloneUse use f1 f2 f3 f2 = .table f1 [0] := by simp [cloneUse, h23]
  have hu3 : cloneUse use f1 f2 f3 f3 = .table f1 [0, 0] := by simp [cloneUse]
  have hp2 := (ho.page f2 (by rw [hu2]; exact nofun)).1
  have hp3 := (ho.page f3 (by rw [hu3]; exact nofun)).1
  have hentry {i : ℕ} (hi : i < 512) := entry_fillClone ho h12 h13 h23 hi
  refine ⟨⟨hp2, hp3⟩, fun i hi => ?_, fun i hi => ?_, fun i hi => (hentry hi).2.2⟩
  · rw [(hentry hi).1, hz1 i hi]
  · rw [(hentry hi).2.1, hz2 i hi]

end

/-- With three free pages the copy is built in them. -/
private theorem pagingCloneKernel_eq {f1 f2 f3 : ℕ} (ho : Owned use (f1 :: f2 :: f3 :: fl) h) :
    pagingCloneKernel h = (f1, fillClone (((h.take f1).take f2).take f3) f1 f2 f3) ∧
      f1 ≠ 0 ∧ Owned (cloneUse use f1 f2 f3) fl
      (fillClone (((h.take f1).take f2).take f3) f1 f2 f3) ∧
      Copied (fillClone (((h.take f1).take f2).take f3) f1 f2 f3).mem f1 f2 f3 := by
  have ho1 := ho.alloc (u := .table f1 []) (by simp) (by simp) fun r hr => (Use.table.inj hr).1
  have ho2 := ho1.alloc (u := .table f1 [0]) (by simp) (by simp) (by simp)
  have ho3 := ho2.alloc (u := .table f1 [0, 0]) (by simp) (by simp) (by simp)
  obtain ⟨h1, hnd⟩ := List.nodup_cons.mp ho.nodup
  obtain ⟨h2, -⟩ := List.nodup_cons.mp hnd
  have h12 : f1 ≠ f2 := fun he => h1 (by simp [he])
  have h13 : f1 ≠ f3 := fun he => h1 (by simp [he])
  have h23 : f2 ≠ f3 := fun he => h2 (by simp [he])
  obtain ⟨-, hp1, hpos, -⟩ := ho.head
  obtain ⟨-, hp2, hpos2, -⟩ := ho1.head
  obtain ⟨-, hp3, hpos3, -⟩ := ho2.head
  have hpdpt := (owned_cloneRoot ho3 h12 h13 h23).template.pdpt
  refine ⟨?_, hpos.ne', owned_fillClone ho3 h12 h13 h23,
    copied_fillClone ho3 h12 h13 h23 (fun i hi => ?_) fun i hi => ?_⟩
  · simp only [pagingCloneKernel, ho.alloc_eq, ho1.alloc_eq, ho2.alloc_eq, hpos.ne', hpos2.ne',
      hpos3.ne', or_self, if_false, kernelPml4Template, ho3.template.pml4]
    have hframe : frameOf 0x2007 = 0x2000 := rfl
    simp only [hframe, hpdpt]
    rfl
  · rw [entry_of_page (fun a h1 h2 => Machine.take_outside _ (by omega)) hi,
      entry_of_page (fun a h1 h2 => Machine.take_outside _ (by omega)) hi]
    exact h.take_entry f1 hi
  · rw [entry_of_page (fun a h1 h2 => Machine.take_outside _ (by omega)) hi]
    exact Machine.take_entry _ f2 hi

/-- Pages that were not free keep their contents. -/
theorem pagingCloneKernel_keeps (ho : Owned use fl h) {g a : ℕ} (hg : g % 4096 = 0)
    (hu : use g ≠ .free) (h1 : g ≤ a) (h2 : a < g + 4096) :
    (pagingCloneKernel h).2.mem a = h.mem a := by
  have hout {f : ℕ} (hf : f ∈ fl) : a < f ∨ f + 4096 ≤ a := by
    have huf := (ho.free f).mp hf
    have hfp := (ho.page f (by rw [huf]; decide)).1
    have hne : g ≠ f := by
      rintro rfl
      exact hu huf
    omega
  rcases fl with _ | ⟨f1, _ | ⟨f2, _ | ⟨f3, fl⟩⟩⟩
  · simp only [pagingCloneKernel, ho.alloc_nil, true_or, if_true]
  · have ho1 := ho.alloc (u := .none) (by simp) (by simp) (by simp)
    simp only [pagingCloneKernel, ho.alloc_eq, ho1.alloc_nil, or_true, if_true]
    exact h.take_outside (hout (by simp))
  · have ho1 := ho.alloc (u := .none) (by simp) (by simp) (by simp)
    have ho2 := ho1.alloc (u := .none) (by simp) (by simp) (by simp)
    simp only [pagingCloneKernel, ho.alloc_eq, ho1.alloc_eq, ho2.alloc_nil, or_true, if_true]
    rw [Machine.take_outside _ (hout (by simp)), Machine.take_outside _ (hout (by simp))]
  · rw [(pagingCloneKernel_eq ho).1]
    have hout1 := hout (f := f1) (by simp)
    have hout2 := hout (f := f2) (by simp)
    have hout3 := hout (f := f3) (by simp)
    rw [fillClone_outside _ hout1 hout2 hout3, Machine.take_outside _ hout3,
      Machine.take_outside _ hout2, h.take_outside hout1]

/-- What `paging_clone_kernel` does: nothing is linked when a page is missing, otherwise there
is a new root with tables of its own. -/
theorem pagingCloneKernel_spec (ho : Owned use fl h) :
    (fl.length < 3 ∧ (pagingCloneKernel h).1 = 0 ∧ ∃ use',
      Owned use' [] (pagingCloneKernel h).2 ∧ Took (· = .none) 2 use fl use' []) ∨
    ∃ r use' fl', fl.length = fl'.length + 3 ∧ (pagingCloneKernel h).1 = r ∧ r ≠ 0 ∧ r ∈ fl ∧
      use' r = .table r [] ∧ Owned use' fl' (pagingCloneKernel h).2 ∧
      Took (Use.IsTable r) 3 use fl use' fl' ∧
      Untouched r use h.mem (pagingCloneKernel h).2.mem ∧
      ∀ ok, Access ok → ∀ va, walk ok (pagingCloneKernel h).2.mem va 3 r = templateWalk ok va := by
  rcases fl with _ | ⟨f1, _ | ⟨f2, _ | ⟨f3, fl⟩⟩⟩
  · refine .inl ⟨by simp, ?_, use, ?_, .refl ..⟩ <;>
      simp only [pagingCloneKernel, ho.alloc_nil, true_or, if_true]
    exact ho
  · have ho1 := ho.alloc (u := .none) (by simp) (by simp) (by simp)
    have ht1 : Took (· = .none) 1 use [f1] _ [] := .one rfl
    refine .inl ⟨by simp, ?_, _, ?_, ht1.mono (by decide) fun _ hu => hu⟩ <;>
      simp only [pagingCloneKernel, ho.alloc_eq, ho1.alloc_nil, or_true, if_true]
    exact ho1
  · have ho1 := ho.alloc (u := .none) (by simp) (by simp) (by simp)
    have ho2 := ho1.alloc (u := .none) (by simp) (by simp) (by simp)
    have ht1 : Took (· = .none) 1 use [f1, f2] _ [f2] := .one rfl
    refine .inl ⟨by simp, ?_, _, ?_, ht1.trans (.one rfl)⟩ <;>
      simp only [pagingCloneKernel, ho.alloc_eq, ho1.alloc_eq, ho2.alloc_nil, or_true, if_true]
    exact ho2
  · obtain ⟨heq, hpos, ho', hcopied⟩ := pagingCloneKernel_eq ho
    obtain ⟨h1, hnd⟩ := List.nodup_cons.mp ho.nodup
    have h12 : f1 ≠ f2 := fun he => h1 (by simp [he])
    have h13 : f1 ≠ f3 := fun he => h1 (by simp [he])
    refine .inr ⟨f1, _, fl, rfl, by rw [heq], hpos, by simp, ?_, by rw [heq]; exact ho', ?_,
      fun g hg hfree _ a h1 h2 => pagingCloneKernel_keeps ho hg hfree h1 h2, fun ok ha va => ?_⟩
    · simp [cloneUse, h12, h13]
    · have ht : Took (Use.IsTable f1) 1 use (f1 :: f2 :: f3 :: fl) _ (f2 :: f3 :: fl) :=
        .one ⟨[], rfl⟩
      exact (ht.trans (.one ⟨_, rfl⟩)).trans (.one ⟨_, rfl⟩)
    · rw [heq]
      exact hcopied.walk ha va

/-- The tables of a new root. -/
theorem pagingCloneKernel_copied (ho : Owned use fl h) (h0 : (pagingCloneKernel h).1 ≠ 0) :
    ∃ f2 f3, Copied (pagingCloneKernel h).2.mem (pagingCloneKernel h).1 f2 f3 := by
  rcases pagingCloneKernel_spec ho with ⟨-, hz, -⟩ | ⟨r, use', fl', hlen, -⟩
  · exact absurd hz h0
  · rcases fl with _ | ⟨f1, _ | ⟨f2, _ | ⟨f3, fl⟩⟩⟩
    · simp at hlen
    · simp at hlen
    · simp at hlen
    · obtain ⟨heq, -, -, hcopied⟩ := pagingCloneKernel_eq ho
      rw [heq]
      exact ⟨f2, f3, hcopied⟩

end

/-- The uses that backing pages under a root gives to frames. -/
def Use.Backing (r : ℕ) (u : Use) : Prop := u = .data ∨ u.IsTable r

/-- The pages that `mapFresh` maps, each with the frame the allocator returned for it. -/
def freshMaps (flags : ℕ) : Machine → List ℕ → List (ℕ × ℕ)
  | _, [] => []
  | h, v :: vs =>
    let (page, h) := pmmAllocPage h
    if page = 0 then [] else (v, page) :: freshMaps flags (mapPage h v page flags) vs

/-- The addresses whose translation mapping pages to frames may change. -/
def TouchedBy (ms : List (ℕ × ℕ)) (va : ℕ) : Prop := ∃ p ∈ ms, Touches p.1 p.2 va

theorem not_touchedBy_nil (va : ℕ) : ¬ TouchedBy [] va := by
  rintro ⟨p, hp, -⟩
  cases hp

/-- The page of an address is backed by one of the given frames, used for data. -/
def BackedAt (use : ℕ → Use) (frames : List ℕ) (h : Machine) (v : ℕ) : Prop :=
  ∃ f ∈ frames, use f = .data ∧ ∀ va, trail va 4 = trail v 4 →
    walk present h.mem va 3 h.pagingRoot = some (f + va % 4096)

/-- What mapping pages to frames under the active root does to the address spaces. -/
structure Remapped (ms : List (ℕ × ℕ)) (use : ℕ → Use) (fl : List ℕ) (h : Machine)
    (use' : ℕ → Use) (fl' : List ℕ) (h' : Machine) : Prop where
  owned : Owned use' fl' h'
  took : Took (Use.Backing h.pagingRoot) (4 * ms.length) use fl use' fl'
  walks : WalksAgree (shape use) (fun r va => r = h.pagingRoot ∧ TouchedBy ms va) h.mem h'.mem
  target : ∀ ok, Access ok → ∀ va pa, walk ok h'.mem va 3 h.pagingRoot = some pa →
    walk ok h.mem va 3 h.pagingRoot = some pa ∨
      ∃ p ∈ ms, Touches p.1 p.2 va ∧ pa = mappedTo p.1 p.2 va
  root : h'.pagingRoot = h.pagingRoot

/-- The same with frames from the free list, which become user data. -/
structure Populated (ms : List (ℕ × ℕ)) (use : ℕ → Use) (fl : List ℕ) (h : Machine)
    (use' : ℕ → Use) (fl' : List ℕ) (h' : Machine) : Prop
    extends Remapped ms use fl h use' fl' h' where
  given : ∀ p ∈ ms, p.2 ∈ fl ∧ use' p.2 = .data
  unused : KeepsUnused use h.mem h'.mem

/-- The same, and all contents other than those of the root's tables stay. -/
structure Backed (ms : List (ℕ × ℕ)) (use : ℕ → Use) (fl : List ℕ) (h : Machine)
    (use' : ℕ → Use) (fl' : List ℕ) (h' : Machine) : Prop
    extends Populated ms use fl h use' fl' h' where
  frame : Untouched h.pagingRoot use h.mem h'.mem

section

variable {use use' : ℕ → Use} {fl fl' : List ℕ} {h h' : Machine} {flags : ℕ}

theorem Remapped.nil (ho : Owned use fl h) : Remapped [] use fl h use fl h :=
  ⟨ho, .refl .., fun _ _ _ _ _ _ => rfl, fun _ _ _ _ hw => .inl hw, rfl⟩

theorem Populated.nil (ho : Owned use fl h) : Populated [] use fl h use fl h :=
  ⟨.nil ho, nofun, .refl _ _⟩

theorem Backed.nil (ho : Owned use fl h) : Backed [] use fl h use fl h :=
  ⟨.nil ho, .refl _ _ _⟩

theorem Remapped.append {ms ns : List (ℕ × ℕ)} {use'' : ℕ → Use} {fl'' : List ℕ} {h'' : Machine}
    (ho : Owned use fl h) (hb : Remapped ms use fl h use' fl' h')
    (hb' : Remapped ns use' fl' h' use'' fl'' h'') :
    Remapped (ms ++ ns) use fl h use'' fl'' h'' := by
  obtain ⟨howned', htook', hwalks', htarget', hroot'⟩ := hb'
  rw [hb.root] at htook' hwalks' htarget'
  refine ⟨howned', ?_, ?_, fun ok ha va pa hw => ?_, hroot'.trans hb.root⟩
  · rw [List.length_append, Nat.mul_add]
    exact hb.took.trans htook'
  · refine (hb.walks.mono fun r va hva => ⟨hva.1, hva.2.imp fun w hw =>
      ⟨List.mem_append_left _ hw.1, hw.2⟩⟩).trans (hwalks'.mono fun r va hva => ⟨hva.1, hva.2.imp
        fun w hw => ⟨List.mem_append_right _ hw.1, hw.2⟩⟩) fun r hr => ?_
    exact shape_eq_some.mpr (hb.took.keeps_table ho (shape_eq_some.mp hr))
  · rcases htarget' ok ha va pa hw with hw | ⟨p, hp, hpa⟩
    · refine (hb.target ok ha va pa hw).imp_right ?_
      rintro ⟨p, hp, hpa⟩
      exact ⟨p, List.mem_append_left _ hp, hpa⟩
    · exact .inr ⟨p, List.mem_append_right _ hp, hpa⟩

theorem Populated.append {ms ns : List (ℕ × ℕ)} {use'' : ℕ → Use} {fl'' : List ℕ} {h'' : Machine}
    (ho : Owned use fl h) (hb : Populated ms use fl h use' fl' h')
    (hb' : Populated ns use' fl' h' use'' fl'' h'') :
    Populated (ms ++ ns) use fl h use'' fl'' h'' := by
  refine ⟨hb.toRemapped.append ho hb'.toRemapped, fun p hp => ?_,
    hb.unused.trans (hb.took.keeps_none ho) hb'.unused⟩
  rcases List.mem_append.mp hp with hp | hp
  · obtain ⟨hfl, hd⟩ := hb.given p hp
    exact ⟨hfl, by rw [hb'.took.keeps hb.owned (by rw [hd]; exact nofun), hd]⟩
  · exact ⟨hb.took.subset (hb'.given p hp).1, (hb'.given p hp).2⟩

theorem Backed.append {ms ns : List (ℕ × ℕ)} {use'' : ℕ → Use} {fl'' : List ℕ} {h'' : Machine}
    (ho : Owned use fl h) (hb : Backed ms use fl h use' fl' h')
    (hb' : Backed ns use' fl' h' use'' fl'' h'') :
    Backed (ms ++ ns) use fl h use'' fl'' h'' := by
  have hframe' := hb'.frame
  rw [hb.root] at hframe'
  exact ⟨hb.toPopulated.append ho hb'.toPopulated, hb.frame.trans ho hb.took hframe'⟩

theorem Remapped.keeps_root {ms : List (ℕ × ℕ)} (ho : Owned use fl h)
    (hb : Remapped ms use fl h use' fl' h') (hr : use h.pagingRoot = .table h.pagingRoot []) :
    use' h'.pagingRoot = .table h'.pagingRoot [] := by
  rw [hb.root]
  exact hb.took.keeps_table ho hr

/-- A change inside one page of user data. -/
theorem Populated.write {m : Mem} {g : ℕ} (ho : Owned use fl h)
    (hr : use h.pagingRoot = .table h.pagingRoot []) (hg : use g = .data)
    (hm : ∀ a, a < g ∨ g + 4096 ≤ a → m a = h.mem a) :
    Populated [] use fl h use fl { h with mem := m } := by
  have hgp := (ho.page g (by rw [hg]; exact nofun)).1
  have hwalks (changed : ℕ → ℕ → Prop) : WalksAgree (shape use) changed h.mem m := by
    refine ho.walksAgree fun t r p ht a h1 h2 => hm a ?_
    have htp := (ho.page t (by rw [ht]; exact nofun)).1
    have htg : t ≠ g := by
      rintro rfl
      rw [hg] at ht
      cases ht
    omega
  refine ⟨⟨ho.write hgp (by rw [hg]; exact id) hm, .refl .., hwalks _,
    fun ok ha va pa hw => .inl ?_, rfl⟩, nofun, ?_⟩
  · exact (hwalks (fun _ _ => False) ok ha _ (shape_eq_some.mpr hr) va id).symm.trans hw
  · refine (SameOutside.one hgp hm).keepsUnused fun f hf => ?_
    rw [List.mem_singleton.mp hf, hg]
    exact nofun

/-- Taking a free page changes no translation. -/
theorem Owned.take_walks {f : ℕ} (ho : Owned use (f :: fl) h) (changed : ℕ → ℕ → Prop) :
    WalksAgree (shape use) changed h.mem (h.take f).mem := by
  obtain ⟨-, hf0, -, -⟩ := ho.head
  refine ho.walksAgree fun t r p ht a h1 h2 => h.take_outside ?_
  have htf : t ≠ f := ho.ne_head (by rw [ht]; exact nofun)
  have htp := (ho.page t (by rw [ht]; exact nofun)).1
  omega

/-- A page allocated for user data and mapped. -/
theorem mapOne_spec {f v : ℕ} (ho : Owned use (f :: fl) h)
    (hr : use h.pagingRoot = .table h.pagingRoot []) (hf : flags < 128) (hpf : present flags) :
    ∃ use' fl', Backed [(v, f)] use (f :: fl) h use' fl' (mapPage (h.take f) v f flags) ∧
      (3 ≤ fl.length → ∀ va, trail va 4 = trail v 4 →
        walk present (mapPage (h.take f) v f flags).mem va 3 h.pagingRoot =
          some (f + va % 4096)) := by
  obtain ⟨-, hf0, -, hf64⟩ := ho.head
  have ho1 := ho.alloc (u := .data) nofun nofun nofun
  have hne : h.pagingRoot ≠ f := ho.ne_head (by rw [hr]; exact nofun)
  have hr1 : Function.update use f .data (h.take f).pagingRoot =
    .table (h.take f).pagingRoot [] := by
    exact (Function.update_of_ne hne ..).trans hr
  obtain ⟨use', fl', hm⟩ : ∃ use' fl', Mapped v f _ fl (h.take f) use' fl' _ :=
    mapPage_spec ho1 hr1 hf0 hf64 hf hpf
  have ht1 : Took (Use.Backing h.pagingRoot) 1 use (f :: fl) _ fl := .one (.inl rfl)
  have htook := ht1.trans (hm.took.mono le_rfl fun u hu => (.inr hu : u.Backing h.pagingRoot))
  have hframe : Untouched h.pagingRoot use h.mem (h.take f).mem := by
    intro g hg hfree _ a h1 h2
    have hgf : g ≠ f := ho.ne_head hfree
    exact h.take_outside (by omega)
  have hall := hframe.trans ho ht1 hm.frame
  refine ⟨use', fl', ⟨⟨⟨hm.owned, htook, ?_, fun ok ha va pa hw => ?_, ?_⟩, fun p hp => ?_,
    hall.keepsUnused⟩, hall⟩, hm.mapped⟩
  · refine (ho.take_walks _).trans (hm.walks.mono fun r va hva => ⟨hva.1, (v, f), by simp, hva.2⟩)
      fun r hr => ?_
    exact shape_eq_some.mpr (ht1.keeps_table ho (shape_eq_some.mp hr))
  · rcases hm.target ok ha va pa hw with hw | hpa
    · exact .inl ((ho.take_walks (fun _ _ => False) ok ha _ (shape_eq_some.mpr hr) va id).symm.trans
        hw)
    · exact .inr ⟨(v, f), by simp, hpa⟩
  · rw [mapPage_root]
    rfl
  · obtain rfl := List.mem_singleton.mp hp
    have hd := hm.took.keeps ho1 (f := f) (by rw [Function.update_self]; exact nofun)
    exact ⟨by simp, by rw [hd, Function.update_self]⟩

/-- A page stays backed while others are backed. -/
theorem Remapped.backedAt {ms : List (ℕ × ℕ)} {frames : List ℕ} {v : ℕ} (ho : Owned use fl h)
    (hb : Remapped ms use fl h use' fl' h') (hr : use h.pagingRoot = .table h.pagingRoot [])
    (hv : ∀ va, trail va 4 = trail v 4 → ¬ TouchedBy ms va) (hat : BackedAt use frames h v) :
    BackedAt use' frames h' v := by
  obtain ⟨f, hmem, hf, hw⟩ := hat
  refine ⟨f, hmem, ?_, fun va hva => ?_⟩
  · rw [hb.took.keeps ho (by rw [hf]; exact nofun), hf]
  · rw [hb.root, hb.walks present access_present _ (shape_eq_some.mpr hr) va
      fun hn => hv va hva hn.2]
    exact hw va hva

theorem freshMaps_cons {f : ℕ} (ho : Owned use (f :: fl) h) (flags v : ℕ) (vs : List ℕ) :
    mapFresh flags h (v :: vs) = mapFresh flags (mapPage (h.take f) v f flags) vs ∧
      freshMaps flags h (v :: vs) = (v, f) :: freshMaps flags
      (mapPage (h.take f) v f flags) vs := by
  simp only [mapFresh, freshMaps, ho.alloc_eq, ho.head.2.2.1.ne', if_false, and_self]

theorem freshMaps_nil {vs : List ℕ} (ho : Owned use [] h) : freshMaps flags h vs = [] := by
  cases vs with
  | nil => rfl
  | cons v vs => simp only [freshMaps, ho.alloc_nil, if_true]

theorem freshMaps_page {vs : List ℕ} {p : ℕ × ℕ} (hp : p ∈ freshMaps flags h vs) : p.1 ∈ vs := by
  induction vs generalizing h with
  | nil => cases hp
  | cons v vs ih =>
    simp only [freshMaps] at hp
    split at hp
    · cases hp
    · rcases List.mem_cons.mp hp with rfl | hp
      · simp
      · exact List.mem_cons_of_mem _ (ih hp)

theorem freshMaps_length (flags : ℕ) (h : Machine) (vs : List ℕ) :
    (freshMaps flags h vs).length ≤ vs.length := by
  induction vs generalizing h with
  | nil => exact le_rfl
  | cons v vs ih =>
    simp only [freshMaps]
    split
    · exact Nat.zero_le _
    · exact Nat.succ_le_succ (ih _)

/-- The loop of `mmap`, `brk` and the loaders keeps ownership. It does not fail while there are
enough free pages. -/
theorem mapFresh_backed (ho : Owned use fl h) (hr : use h.pagingRoot = .table h.pagingRoot [])
    (hf : flags < 128) (hpf : present flags) (vs : List ℕ) :
    ∃ use' fl', Backed (freshMaps flags h vs) use fl h use' fl' (mapFresh flags h vs).2 ∧
      (4 * vs.length ≤ fl.length → (mapFresh flags h vs).1 = true) := by
  induction vs generalizing use fl h with
  | nil => exact ⟨use, fl, .nil ho, fun _ => rfl⟩
  | cons v vs ih =>
    cases fl with
    | nil =>
      refine ⟨use, [], ?_, fun hn => ?_⟩
      · rw [freshMaps_nil ho]
        simp only [mapFresh, ho.alloc_nil, if_true]
        exact .nil ho
      · rw [List.length_cons, List.length_nil] at hn
        omega
    | cons f fl =>
      obtain ⟨use1, fl1, hb, -⟩ := mapOne_spec (v := v) ho hr hf hpf
      obtain ⟨use2, fl2, hb2, hok⟩ := ih hb.owned (hb.keeps_root ho hr)
      have hlen := hb.took.length_le
      simp only [List.length_cons, List.length_nil] at hlen
      obtain ⟨hmap, hms⟩ := freshMaps_cons ho flags v vs
      rw [hmap, hms]
      refine ⟨use2, fl2, hb.append ho hb2, fun hroom => hok ?_⟩
      rw [List.length_cons, List.length_cons] at hroom
      omega

/-- Mapping pages touches no page below them. -/
private theorem not_touchedBy_of_lt {vs : List ℕ} {ms : List (ℕ × ℕ)} {v va : ℕ}
    (hv : v % 4096 = 0 ∧ v < 2 ^ 48) (hvs : ∀ w ∈ vs, w % 4096 = 0 ∧ w < 2 ^ 48)
    (hlt : ∀ w ∈ vs, v < w) (hms : ∀ p ∈ ms, p.1 ∈ vs) (hva : trail va 4 = trail v 4) :
    ¬ TouchedBy ms va := by
  rintro ⟨p, hp, htouch⟩
  have hvw := hlt p.1 (hms p hp)
  have hwp := hvs p.1 (hms p hp)
  rcases htouch with h4 | ⟨⟨hal, -⟩, h3⟩
  · have hpage := trail_four_inj hv.2 hwp.2 (hva.symm.trans h4)
    omega
  · have hregion := trail_three_inj hv.2 hwp.2 ((trail_last hva).1.symm.trans h3)
    omega

/-- With enough free pages, an ascending list of pages ends up backed. -/
theorem mapFresh_backedAt (ho : Owned use fl h) (hr : use h.pagingRoot = .table h.pagingRoot [])
    (hf : flags < 128) (hpf : present flags) {vs : List ℕ} (hvs : vs.Pairwise (· < ·))
    (hpage : ∀ v ∈ vs, v % 4096 = 0 ∧ v < 2 ^ 48) (hroom : 4 * vs.length ≤ fl.length) :
    (mapFresh flags h vs).1 = true ∧ ∃ use' fl',
      Backed (freshMaps flags h vs) use fl h use' fl' (mapFresh flags h vs).2 ∧
        ∀ v ∈ vs, BackedAt use' fl (mapFresh flags h vs).2 v := by
  induction vs generalizing use fl h with
  | nil => exact ⟨rfl, use, fl, .nil ho, nofun⟩
  | cons v vs ih =>
    rw [List.length_cons] at hroom
    cases fl with
    | nil =>
      rw [List.length_nil] at hroom
      omega
    | cons f fl =>
      rw [List.length_cons] at hroom
      obtain ⟨hlt, hvs⟩ := List.pairwise_cons.mp hvs
      obtain ⟨use1, fl1, hb, hmap⟩ := mapOne_spec (v := v) ho hr hf hpf
      have hwalk := hmap (by omega)
      obtain ⟨-, hdata⟩ := hb.given (v, f) (by simp)
      have hlen := hb.took.length_le
      simp only [List.length_cons, List.length_nil] at hlen
      obtain ⟨hok, use2, fl2, hb2, hat⟩ := ih hb.owned (hb.keeps_root ho hr) hvs
        (fun w hw => hpage w (by simp [hw])) (by omega)
      obtain ⟨hfresh, hms⟩ := freshMaps_cons ho flags v vs
      rw [hfresh, hms]
      refine ⟨hok, use2, fl2, hb.append ho hb2, fun w hw => ?_⟩
      rcases List.mem_cons.mp hw with rfl | hw
      · refine hb2.backedAt hb.owned (hb.keeps_root ho hr) (fun va hva => ?_)
          ⟨f, by simp, hdata, by rwa [hb.root]⟩
        exact not_touchedBy_of_lt (hpage w (by simp)) (fun x hx => hpage x (by simp [hx])) hlt
          (fun p hp => freshMaps_page hp) hva
      · obtain ⟨g, hg, hgd⟩ := hat w hw
        exact ⟨g, hb.took.subset hg, hgd⟩

end

end Mukrn
