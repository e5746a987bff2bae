import Mukrn.Memory.Safe

/-! The loops over pages that the memory calls run, the writes through a caller's pointer, and a
task added to the table. -/
namespace Mukrn
open ByteMemory PageTable

section Loops

variable {use : ℕ → Use} {fl : List ℕ} {h : Machine}

theorem foldl_unmapPage_spec (ho : Owned use fl h)
    (hr : use h.pagingRoot = .table h.pagingRoot []) (vs : List ℕ) :
    Unmapped (fun va => ∃ v ∈ vs, trail va 3 = trail v 3) use fl h (vs.foldl unmapPage h) := by
  induction vs generalizing h with
  | nil => exact .refl _ ho
  | cons v vs ih =>
    rw [List.foldl_cons]
    have hone := unmapPage_spec ho hr v
    have hrest := ih hone.owned (by rwa [unmapPage_root])
    refine Unmapped.trans ⟨hone.owned, hone.walks.mono fun r va hva => ⟨hva.1, v, by simp, hva.2⟩,
      hone.target, hone.root⟩ ⟨hrest.owned, hrest.walks.mono fun r va hva => ⟨hva.1, ?_⟩,
      hrest.target, hrest.root⟩
    obtain ⟨w, hw, hva⟩ := hva.2
    exact ⟨w, by simp [hw], hva⟩

/-- One page mapped to a frame. -/
theorem mapPage_remapped {flags v f : ℕ} (ho : Owned use fl h)
    (hr : use h.pagingRoot = .table h.pagingRoot []) (hf : flags < 128) (hpf : present flags)
    (hal : f % 4096 = 0) (hlt : f < 2 ^ 64) :
    ∃ use' fl', Remapped [(v, f)] use fl h use' fl' (mapPage h v f flags) := by
  obtain ⟨use1, fl1, hm⟩ : ∃ use' fl', Mapped v f use fl h use' fl' _ :=
    mapPage_spec ho hr hal hlt hf hpf
  refine ⟨use1, fl1, hm.owned, hm.took.mono (by simp) fun _ hu => .inr hu,
    hm.walks.mono fun r va hva => ⟨hva.1, _, List.mem_singleton_self _, hva.2⟩,
    fun ok ha va pa hw => ?_, mapPage_root ..⟩
  exact (hm.target ok ha va pa hw).imp_right fun hpa => ⟨_, List.mem_singleton_self _, hpa⟩

theorem foldl_mapPage_spec (ho : Owned use fl h)
    (hr : use h.pagingRoot = .table h.pagingRoot []) {flags : ℕ} (hf : flags < 128)
    (hpf : present flags) {phys : ℕ → ℕ} {vs : List ℕ}
    (hphys : ∀ v ∈ vs, phys v % 4096 = 0 ∧ phys v < 2 ^ 64) :
    ∃ use' fl', Remapped (vs.map fun v => (v, phys v)) use fl h use' fl'
      (vs.foldl (fun h v => mapPage h v (phys v) flags) h) := by
  induction vs generalizing use fl h with
  | nil => exact ⟨use, fl, .nil ho⟩
  | cons v vs ih =>
    obtain ⟨hal, hlt⟩ := hphys v (by simp)
    obtain ⟨use1, fl1, hone⟩ := mapPage_remapped (v := v) ho hr hf hpf hal hlt
    rw [List.foldl_cons, List.map_cons]
    generalize mapPage h v (phys v) flags = h1 at hone ⊢
    obtain ⟨use2, fl2, hrest⟩ := ih hone.owned (hone.keeps_root ho hr) fun w hw =>
      hphys w (by simp [hw])
    exact ⟨use2, fl2, hone.append ho hrest⟩

private theorem HugeAt.congr {h' : Machine} {r virt : ℕ} (ho' : Owned use fl h')
    (hr : use r = .table r []) (hag : ∀ t r p, use t = .table r p → p.length < 3 →
      ∀ i < 512, entry h'.mem t i = entry h.mem t i) (hh : HugeAt h'.mem r virt) :
    HugeAt h.mem r virt := by
  obtain ⟨t, hat, hp, hh⟩ := hh
  have hsr := shape_eq_some.mpr hr
  have hst := ho'.tree.linked.tableAt access_present.present hsr hat
  have hlen := trail_length virt 2
  have he := hag t r _ (shape_eq_some.mp hst) (by omega) (pdtIndex virt) (index_lt 1 virt)
  rw [he] at hp hh
  refine ⟨t, hat.congr ho'.tree.linked access_present.present hsr fun t' q ht' hq i hi => ?_, hp,
    hh⟩
  exact (hag t' r q (shape_eq_some.mp ht') (by omega) i hi).symm

theorem foldl_mapPageFlags_spec (ho : Owned use fl h)
    (hr : use h.pagingRoot = .table h.pagingRoot []) (flags : ℕ) {vs : List ℕ}
    (hn : ∀ v ∈ vs, ¬ HugeAt h.mem h.pagingRoot v) :
    Reflagged (fun va => ∃ v ∈ vs, trail va 4 = trail v 4) use fl h
      (vs.foldl (fun h v => mapPageFlags h v flags) h) := by
  induction vs generalizing h with
  | nil => exact .refl _ ho
  | cons v vs ih =>
    rw [List.foldl_cons]
    have hone := mapPageFlags_spec ho hr flags (hn v (by simp))
    have hrest := ih hone.owned (by rwa [mapPageFlags_root]) fun w hw hh => hn w (by simp [hw]) (by
      rw [mapPageFlags_root] at hh
      exact hh.congr hone.owned hr hone.upper)
    refine Reflagged.trans ⟨hone.owned, hone.walks.mono fun r va hva => ⟨hva.1, v, by simp, hva.2⟩,
      hone.target, hone.upper, hone.root⟩ ⟨hrest.owned, hrest.walks.mono fun r va hva =>
        ⟨hva.1, ?_⟩, hrest.target, hrest.upper, hrest.root⟩
    obtain ⟨w, hw, hva⟩ := hva.2
    exact ⟨w, by simp [hw], hva⟩

end Loops

section Writes

variable {use : ℕ → Use} {fl : List ℕ} {h h' : Machine}

theorem writeUserBytes_eq {p i : ℕ} {bs : List UInt8} (hw : writeUserBytes h p i bs = some h') :
    h' = { h with mem := h'.mem } := by
  induction bs generalizing h i with
  | nil =>
    obtain rfl := Option.some.inj hw
    rfl
  | cons b bs ih =>
    obtain ⟨h1, hb, hw⟩ := Option.bind_eq_some_iff.mp hw
    obtain ⟨a, -, rfl⟩ := Option.map_eq_some_iff.mp hb
    have he := ih hw
    exact he

theorem writeUserMsg_eq {msg : ℕ} {src : IpcMsg} (hw : writeUserMsg h msg src = some h') :
    h' = { h with mem := h'.mem } := by
  obtain ⟨h1, hw1, hw⟩ := Option.bind_eq_some_iff.mp hw
  obtain ⟨h2, hw2, hw⟩ := Option.bind_eq_some_iff.mp hw
  obtain ⟨h3, hw3, hw⟩ := Option.bind_eq_some_iff.mp hw
  rw [writeUserBytes_eq hw, writeUserBytes_eq hw3, writeUserBytes_eq hw2, writeUserBytes_eq hw1]

theorem userStore_cases {virt : ℕ} {b : UInt8} (hw : userStore h virt b = some h') :
    canonical virt ∧ ∃ a, walk userWritable h.mem virt 3 h.pagingRoot = some a ∧
      h' = { h with mem := Function.update h.mem a b } := by
  unfold userStore at hw
  split at hw
  next hcan =>
    obtain ⟨a, ha, rfl⟩ := Option.map_eq_some_iff.mp hw
    exact ⟨hcan, a, ha, rfl⟩
  · cases hw

/-- A trap frame fits into its page. -/
theorem Owned.storeFrame (ho : Owned use fl h) {a : ℕ} (ha : a % 4096 = 0)
    (hu : ¬ (use a).Critical) (r : Registers) :
    Owned use fl { h with mem := storeFrame h.mem a r } :=
  ho.write ha hu fun x hx => storeWords_outside (by omega)

end Writes

/-- A new task in the first free slot. -/
theorem Safe.addTask {use : ℕ → Use} {fl : List ℕ} {s : Kernel} {h : Machine}
    {wantPid kstack pml4 loadAddr codePages : ℕ}
    (hs : Safe use fl { s with machine := h }) (hk : use kstack = .stack s.numTasks)
    (hp : use pml4 = .table pml4 []) :
    Safe use fl (addTask s h none wantPid kstack pml4 loadAddr codePages).2 := by
  refine ⟨hs.owned, fun i hi hl => ?_, fun i hi => ?_⟩
  · by_cases he : i = s.numTasks
    · subst he
      simp only [Mukrn.addTask, Option.getD_none, Kernel.setTask_apply, if_true]
      exact .inr hk
    · have hi : i < s.numTasks := Nat.lt_of_le_of_ne (Nat.le_of_lt_succ hi) he
      simp only [Mukrn.addTask, Option.getD_none, Kernel.live, Kernel.setTask_apply, if_neg he]
        at hl ⊢
      exact hs.stack i hi hl
  · by_cases he : i = s.numTasks
    · subst he
      simp only [Mukrn.addTask, Option.getD_none, Kernel.setTask_apply, if_true]
      exact hp
    · have hi : i < s.numTasks := Nat.lt_of_le_of_ne (Nat.le_of_lt_succ hi) he
      simp only [Mukrn.addTask, Option.getD_none, Kernel.setTask_apply, if_neg he]
      exact hs.root i hi

end Mukrn
