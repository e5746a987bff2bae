import Mukrn.Memory.Load

/-! What each request does to page ownership and to the address spaces of the tasks. Where a
request does not keep the kernel safe on its own, `SoundRequest` says what it needs. -/
namespace Mukrn
open ByteMemory PageTable

/-- Every root in use was in use before. -/
def SameRoots (s k : Kernel) : Prop :=
  ∀ i < k.numTasks, ∃ j < s.numTasks, (k.tasks i).pml4Phys = (s.tasks j).pml4Phys

theorem KeepsSlots.sameRoots {s k : Kernel} (h : KeepsSlots s k) : SameRoots s k :=
  fun i hi => ⟨i, h.numTasks ▸ hi, h.pml4Phys i⟩

/-- Only translations in the address space of slot `c` changed, where `changed` says. -/
structure SpaceChange (changed : ℕ → Prop) (s : Kernel) (c : ℕ) (k : Kernel) : Prop where
  roots : SameRoots s k
  walks : ∀ ok, Access ok → ∀ i < s.numTasks, ∀ va,
    ¬ ((s.tasks i).pml4Phys = (s.tasks c).pml4Phys ∧ changed va) →
      walk ok k.machine.mem va 3 (s.tasks i).pml4Phys =
        walk ok s.machine.mem va 3 (s.tasks i).pml4Phys

/-- The pages a call maps in the caller's address space, with the frames they are mapped to. -/
def callMaps (s : Kernel) (c : ℕ) : Syscall → List (ℕ × ℕ)
  | .mmap virt size flags =>
    freshMaps (mmapFlags flags) (pagingSwitch s.machine (s.tasks c).pml4Phys)
      (pageCursor (rangeStart virt) (rangeEnd virt size))
  | .brk addr =>
    if addr = 0 then []
    else
      freshMaps (pagePresent ||| pageWritable ||| pageUser)
        (pagingSwitch s.machine (s.tasks c).pml4Phys) (pageCursor s.heapBrk addr)
  | .mmapPhys virt phys size _ =>
    (pageCursor (rangeStart virt) (rangeEnd virt size)).map fun v =>
      (v, (rangeStart phys + (v - rangeStart virt)) % 2 ^ 64)
  | _ => []

/-- The call maps frames of the caller's choice. -/
def Syscall.isMmapPhys : Syscall → Bool
  | .mmapPhys .. => true
  | _ => false

/-- What a request of slot `c` does to the address spaces. -/
inductive SpaceEffect (s : Kernel) (c : ℕ) (use' : ℕ → Use) (k : Kernel) : Request → Prop
  | same {q : Request} (h : SpaceChange (fun _ => False) s c k) : SpaceEffect s c use' k q
  | mapped {io : Ports} {call : Syscall} (h : SpaceChange (TouchedBy (callMaps s c call)) s c k)
      (ht : ∀ ok, Access ok → ∀ va pa, walk ok k.machine.mem va 3 (s.tasks c).pml4Phys = some pa →
        walk ok s.machine.mem va 3 (s.tasks c).pml4Phys = some pa ∨
          ∃ p ∈ callMaps s c call, Touches p.1 p.2 va ∧ pa = mappedTo p.1 p.2 va)
      (hg : call.isMmapPhys = false → ∀ p ∈ callMaps s c call, use' p.2 = .data) :
      SpaceEffect s c use' k (.call io call)
  | unmapped {io : Ports} {virt size : ℕ}
      (h : SpaceChange (fun va => ∃ v ∈ pageCursor (rangeStart virt) (rangeEnd virt size),
        trail va 3 = trail v 3) s c k)
      (ht : ∀ ok, Access ok → ∀ va pa, walk ok k.machine.mem va 3 (s.tasks c).pml4Phys = some pa →
        walk ok s.machine.mem va 3 (s.tasks c).pml4Phys = some pa) :
      SpaceEffect s c use' k (.call io (.munmap virt size))
  | reflagged {io : Ports} {virt size flags : ℕ}
      (h : SpaceChange (fun va => ∃ v ∈ pageCursor (rangeStart virt) (rangeEnd virt size),
        trail va 4 = trail v 4) s c k)
      (ht : ∀ ok, Access ok → ∀ va pa, walk ok k.machine.mem va 3 (s.tasks c).pml4Phys = some pa →
        walk present s.machine.mem va 3 (s.tasks c).pml4Phys = some pa) :
      SpaceEffect s c use' k (.call io (.mprotect virt size flags))
  | spawned {io : Ports} {addr size : ℕ}
      (hw : ∀ ok, Access ok → ∀ i < s.numTasks, ∀ va,
        walk ok k.machine.mem va 3 (s.tasks i).pml4Phys =
          walk ok s.machine.mem va 3 (s.tasks i).pml4Phys)
      (hr : ∀ i < k.numTasks, (∃ j < s.numTasks, (k.tasks i).pml4Phys = (s.tasks j).pml4Phys) ∨
        ((k.tasks i).pml4Phys = (elfMaps s addr size 0).1 ∧
          NewSpace (elfMaps s addr size 0).2 k.machine.mem (elfMaps s addr size 0).1 ∧
          ∀ p ∈ (elfMaps s addr size 0).2, use' p.2 = .data)) :
      SpaceEffect s c use' k (.call io (.spawnAt addr size))

/-- Pages of user data stay such. -/
def KeepsData (use use' : ℕ → Use) : Prop := ∀ f, use f = .data → use' f = .data

/-- The request ends in a safe kernel, and its effect on the address spaces is as described. -/
def Settles (use : ℕ → Use) (s : Kernel) (c : ℕ) (q : Request) (k : Kernel) : Prop :=
  ∃ use' fl', Safe use' fl' k ∧ KeepsData use use' ∧ SpaceEffect s c use' k q

/-- The task gives back no user memory when it ends. -/
def Task.IsThread (t : Task) : Prop := t.pml4Phys = 0 ∨ t.codePages = 0

theorem freeUserMemory_thread {t : Task} (ht : t.IsThread) (h : Machine) :
    freeUserMemory h t = h := by
  rw [freeUserMemory, if_neg]
  rintro ⟨h1, h2⟩
  exact ht.elim h1 h2

theorem mmapFlags_bits (flags : ℕ) : mmapFlags flags < 128 ∧ present (mmapFlags flags) ∧
    userOpen (mmapFlags flags) ∧ writable (mmapFlags flags) = decide (flags / 2 % 2 = 1) := by
  unfold mmapFlags
  by_cases h1 : flags / 2 % 2 = 1
  · rw [if_pos h1, decide_eq_true h1]
    decide
  · rw [if_neg h1, decide_eq_false h1]
    decide

theorem mmapPhysFlags_bits (flags : ℕ) : mmapPhysFlags flags < 128 ∧
    present (mmapPhysFlags flags) ∧ mmapPhysFlags flags / 4 % 2 = 1 ∧
    (mmapPhysFlags flags / 2 % 2 = 1 ↔ flags / 2 % 2 = 1) ∧
    (mmapPhysFlags flags / 16 % 2 = 1 ↔ flags / 4 % 2 = 1) := by
  unfold mmapPhysFlags
  by_cases hw : flags / 2 % 2 = 1 <;> by_cases hd : flags / 4 % 2 = 1 <;>
    simp only [hw, hd, if_true, if_false] <;> decide

/-- The frames of `mmap_phys` are page addresses. -/
theorem mmapPhys_frame (phys : ℕ) {virt size v : ℕ}
    (hv : v ∈ pageCursor (rangeStart virt) (rangeEnd virt size)) :
    (rangeStart phys + (v - rangeStart virt)) % 2 ^ 64 % 4096 = 0 ∧
      (rangeStart phys + (v - rangeStart virt)) % 2 ^ 64 < 2 ^ 64 := by
  obtain ⟨i, -, rfl⟩ := List.mem_map.mp hv
  unfold rangeStart
  omega

namespace Safe

variable {use use' : ℕ → Use} {fl fl' : List ℕ} {s k : Kernel} {c : ℕ} {q : Request}

theorem spaceChange (hs : Safe use fl s) {changed : ℕ → Prop} (hr : SameRoots s k)
    (hw : WalksAgree (shape use) (fun r va => r = (s.tasks c).pml4Phys ∧ changed va)
      s.machine.mem k.machine.mem) : SpaceChange changed s c k :=
  ⟨hr, fun ok ha i hi va hn => hw ok ha _ (shape_eq_some.mpr (hs.root i hi)) va hn⟩

/-- Only slots changed, in respects that ownership does not depend on. -/
theorem settles_slots (hs : Safe use fl s) (hk : KeepsSlots s k) (hm : k.machine = s.machine) :
    Settles use s c q k := by
  refine ⟨use, fl, hs.slots hk hm, fun _ hf => hf, .same ⟨hk.sameRoots, fun _ _ _ _ _ _ => ?_⟩⟩
  rw [hm]

theorem settles_refl (hs : Safe use fl s) : Settles use s c q s := hs.settles_slots (.refl s) rfl

/-- A harmless write, and then a change of slots. -/
theorem settles_harmless (hs : Safe use fl s) {h : Machine}
    (hh : h = { s.machine with mem := h.mem })
    (hm : Harmless s h.mem) (hk : KeepsSlots { s with machine := h } k) (hkm : k.machine = h) :
    Settles use s c q k := by
  obtain ⟨use', hs', hkeep, hw⟩ := hs.harmless hm
  rw [← hh] at hs'
  refine ⟨use', fl, hs'.slots hk hkm, fun f hf => ?_,
    .same ⟨hk.sameRoots, fun ok ha i hi va _ => ?_⟩⟩
  · rw [hkeep f (by rw [hf]; exact nofun), hf]
  · rw [hkm]
    exact hw ok ha _ (shape_eq_some.mpr (hs'.root i hi)) va id

section

variable (hs : Safe use fl s) (hc : s.currentTask = some c) (hcn : c < s.numTasks)
include hs hc hcn

theorem sysMmap (io : Ports) (virt size flags : ℕ) :
    Settles use s c (.call io (.mmap virt size flags)) (sysMmap s virt size flags).2 := by
  obtain ⟨hf, hpf, -⟩ := mmapFlags_bits flags
  obtain ⟨use', fl', hb, -⟩ := mapFresh_backed (hs.owned.switch (s.tasks c).pml4Phys)
    (hs.root c hcn) hf hpf (pageCursor (rangeStart virt) (rangeEnd virt size))
  unfold Mukrn.sysMmap
  split
  next hn => cases hc.symm.trans hn
  next d hd =>
    obtain rfl := Option.some.inj (hc.symm.trans hd)
    refine ⟨use', fl', hs.took (hb.owned.switch _) hb.took, fun f hf => ?_,
      .mapped (hs.spaceChange (fun i hi => ⟨i, hi, rfl⟩) hb.walks) hb.target
        fun _ p hp => (hb.given p hp).2⟩
    rw [hb.took.keeps hs.owned (by rw [hf]; exact nofun), hf]

theorem sysMunmap (io : Ports) (virt size : ℕ) :
    Settles use s c (.call io (.munmap virt size)) (sysMunmap s virt size).2 := by
  have hu := foldl_unmapPage_spec (hs.owned.switch (s.tasks c).pml4Phys) (hs.root c hcn)
    (pageCursor (rangeStart virt) (rangeEnd virt size))
  unfold Mukrn.sysMunmap
  split
  next hn => cases hc.symm.trans hn
  next d hd =>
    obtain rfl := Option.some.inj (hc.symm.trans hd)
    exact ⟨use, fl, hs.machine (hu.owned.switch _) (fun _ _ h => h) fun _ _ => rfl, fun _ hf => hf,
      .unmapped (hs.spaceChange (fun i hi => ⟨i, hi, rfl⟩) hu.walks) hu.target⟩

theorem sysMprotect (io : Ports) {virt size : ℕ} (flags : ℕ)
    (hn : ∀ v ∈ pageCursor (rangeStart virt) (rangeEnd virt size),
      ¬ HugeAt s.machine.mem (s.tasks c).pml4Phys v) :
    Settles use s c (.call io (.mprotect virt size flags)) (sysMprotect s virt size flags).2 := by
  have hf := foldl_mapPageFlags_spec (hs.owned.switch (s.tasks c).pml4Phys) (hs.root c hcn)
    (mprotectFlags flags) hn
  unfold Mukrn.sysMprotect
  split
  next hn => cases hc.symm.trans hn
  next d hd =>
    obtain rfl := Option.some.inj (hc.symm.trans hd)
    exact ⟨use, fl, hs.machine (hf.owned.switch _) (fun _ _ h => h) fun _ _ => rfl, fun _ hf => hf,
      .reflagged (hs.spaceChange (fun i hi => ⟨i, hi, rfl⟩) hf.walks) hf.target⟩

theorem sysMmapPhys (io : Ports) (virt phys size flags : ℕ) :
    Settles use s c (.call io (.mmapPhys virt phys size flags))
      (sysMmapPhys s virt phys size flags).2 := by
  obtain ⟨hf, hpf, -⟩ := mmapPhysFlags_bits flags
  obtain ⟨use', fl', hm⟩ := foldl_mapPage_spec (hs.owned.switch (s.tasks c).pml4Phys)
    (hs.root c hcn) hf hpf fun v hv => mmapPhys_frame phys hv
  unfold Mukrn.sysMmapPhys
  split
  next hn => cases hc.symm.trans hn
  next d hd =>
    obtain rfl := Option.some.inj (hc.symm.trans hd)
    refine ⟨use', fl', hs.took (hm.owned.switch _) hm.took, fun f hf => ?_,
      .mapped (hs.spaceChange (fun i hi => ⟨i, hi, rfl⟩) hm.walks) hm.target nofun⟩
    rw [hm.took.keeps hs.owned (by rw [hf]; exact nofun), hf]

theorem sysBrk (io : Ports) (addr : ℕ) :
    Settles use s c (.call io (.brk addr)) (sysBrk s addr).2 := by
  obtain ⟨use', fl', hb, -⟩ := mapFresh_backed (hs.owned.switch (s.tasks c).pml4Phys)
    (hs.root c hcn) (show pagePresent ||| pageWritable ||| pageUser < 128 by decide) (by decide)
    (pageCursor s.heapBrk addr)
  have hsafe := hs.took (hb.owned.switch s.machine.pagingRoot) hb.took
  have hdata (f : ℕ) (hf : use f = .data) : use' f = .data := by
    rw [hb.took.keeps hs.owned (by rw [hf]; exact nofun), hf]
  have hmaps (h0 : addr ≠ 0) : callMaps s c (.brk addr) =
      freshMaps (pagePresent ||| pageWritable ||| pageUser)
        (pagingSwitch s.machine (s.tasks c).pml4Phys) (pageCursor s.heapBrk addr) := if_neg h0
  unfold Mukrn.sysBrk
  split
  next hn => cases hc.symm.trans hn
  next d hd =>
    obtain rfl := Option.some.inj (hc.symm.trans hd)
    simp only
    split
    · exact hs.settles_refl
    next h0 =>
      have heffect {k : Kernel} (hr : SameRoots s k)
          (hm : k.machine.mem = (mapFresh (pagePresent ||| pageWritable ||| pageUser)
            (pagingSwitch s.machine (s.tasks c).pml4Phys) (pageCursor s.heapBrk addr)).2.mem) :
          SpaceEffect s c use' k (.call io (.brk addr)) := by
        refine .mapped (hs.spaceChange hr ?_) ?_ ?_
        · rw [hmaps h0, hm]
          exact hb.walks
        · rw [hmaps h0, hm]
          exact hb.target
        · rw [hmaps h0]
          exact fun _ p hp => (hb.given p hp).2
      split
      · exact ⟨use', fl', ⟨hsafe.owned, hsafe.stack, hsafe.root⟩, hdata,
          heffect (fun i hi => ⟨i, hi, rfl⟩) rfl⟩
      · exact ⟨use', fl', hsafe, hdata, heffect (fun i hi => ⟨i, hi, rfl⟩) rfl⟩

omit hs in
/-- A thread gets the first free page as its stack. -/
theorem cloned {f : ℕ} {fl : List ℕ} (hs : Safe use (f :: fl) s) (hn : s.numTasks < maxTasks)
    (flags userStack entry arg : ℕ) : ∃ h use',
      Mukrn.sysClone s flags userStack entry arg =
        Mukrn.addTask s h none 0 f (s.tasks c).pml4Phys (s.tasks c).loadAddr 0 ∧
      Safe use' fl (Mukrn.addTask s h none 0 f (s.tasks c).pml4Phys (s.tasks c).loadAddr 0).2 ∧
      KeepsData use use' ∧ WalksAgree (shape use) (fun _ _ => False) s.machine.mem h.mem := by
  obtain ⟨hfree, hf0, hfpos, -⟩ := hs.owned.head
  have ho := hs.owned.alloc (u := .stack s.numTasks) nofun nofun nofun
  have hu : Function.update use f (.stack s.numTasks) f = .stack s.numTasks :=
    Function.update_self ..
  have ht : Took (· = .stack s.numTasks) 1 use (f :: fl) _ fl := .one rfl
  have hframe := ho.storeFrame hf0 (by rw [hu]; exact id) (.initial entry userStack arg)
  have hout : SameOutside [f] s.machine.mem
      (storeFrame (s.machine.take f).mem f (.initial entry userStack arg)) := by
    refine .one hf0 fun a ha => ?_
    have hstore : storeFrame (s.machine.take f).mem f (.initial entry userStack arg) a =
        (s.machine.take f).mem a := storeWords_outside (by omega)
    rw [hstore, s.machine.take_outside ha]
  refine ⟨_, _, ?_, (hs.took hframe ht).addTask hu (ht.keeps_table hs.owned (hs.root c hcn)),
    fun g hg => ?_, hs.owned.walks_sameOutside hout (fun g hg r p => ?_) _⟩
  · unfold Mukrn.sysClone
    split
    next hd => cases hc.symm.trans hd
    next d hd =>
      obtain rfl := Option.some.inj (hc.symm.trans hd)
      rw [hs.owned.alloc_eq]
      simp only [if_neg (Nat.not_le.mpr hn), if_neg hfpos.ne']
      rfl
  · rw [ht.keeps hs.owned (by rw [hg]; exact nofun), hg]
  · rw [List.mem_singleton.mp hg, hfree]
    exact nofun

theorem sysClone (flags userStack entry arg : ℕ) :
    Settles use s c q (sysClone s flags userStack entry arg).2 := by
  by_cases hn : maxTasks ≤ s.numTasks
  · unfold Mukrn.sysClone
    split
    · exact hs.settles_refl
    · rw [if_pos hn]
      exact hs.settles_refl
  cases fl with
  | nil =>
    unfold Mukrn.sysClone
    split
    · exact hs.settles_refl
    · rw [if_neg hn, hs.owned.alloc_nil]
      exact hs.settles_refl
  | cons f fl =>
    obtain ⟨h, use', heq, hsafe, hkeep, hw⟩ :=
      cloned hc hcn hs (Nat.not_le.mp hn) flags userStack entry arg
    rw [heq]
    refine ⟨use', fl, hsafe, hkeep, .same (hs.spaceChange (fun i hi => ?_) fun ok ha r hr va _ =>
      hw ok ha r hr va id)⟩
    by_cases he : i = s.numTasks
    · exact ⟨c, hcn, by simp [Mukrn.addTask, he, newTask, ipcInitTask]⟩
    · have hi : i < s.numTasks := Nat.lt_of_le_of_ne (Nat.le_of_lt_succ hi) he
      exact ⟨i, hi, by simp [Mukrn.addTask, he]⟩

end

/-- A task ends: its stack page goes back to the free list, and every other slot is as before. -/
theorem release {d : ℕ} (hs : Safe use fl s) (hd : d < s.numTasks)
    (hl : s.live d ∨ s.currentTask = some d) (hnum : k.numTasks = s.numTasks)
    (hstack : ∀ j, j ≠ d → (k.tasks j).stackPhys = (s.tasks j).stackPhys)
    (hroot : ∀ j, (k.tasks j).pml4Phys = (s.tasks j).pml4Phys)
    (halive : ∀ j < s.numTasks, j ≠ d → k.live j ∨ k.currentTask = some j →
      s.live j ∨ s.currentTask = some j)
    (hdead : k.live d ∨ k.currentTask = some d → (k.tasks d).stackPhys = 0)
    (hm : k.machine = freeStackPage s.machine (s.tasks d)) : Settles use s c q k := by
  have hother {j : ℕ} (hj : j < k.numTasks) (hne : j ≠ d)
      (hlive : k.live j ∨ k.currentTask = some j) :
      (k.tasks j).stackPhys = 0 ∨ use (k.tasks j).stackPhys = .stack j := by
    rw [hstack j hne]
    exact hs.stack j (hnum ▸ hj) (halive j (hnum ▸ hj) hne hlive)
  have htable (j : ℕ) (hj : j < k.numTasks) :
      use (k.tasks j).pml4Phys = .table (k.tasks j).pml4Phys [] := by
    rw [hroot j]
    exact hs.root j (hnum ▸ hj)
  have hroots : SameRoots s k := fun j hj => ⟨j, hnum ▸ hj, hroot j⟩
  by_cases h0 : (s.tasks d).stackPhys = 0
  · rw [freeStackPage, if_neg (not_not.mpr h0)] at hm
    refine ⟨use, fl, ⟨hm ▸ hs.owned, fun j hj hlive => ?_, htable⟩, fun _ hf => hf,
      .same ⟨hroots, fun _ _ _ _ _ _ => by rw [hm]⟩⟩
    by_cases hne : j = d
    · exact .inl (hne ▸ hdead (hne ▸ hlive))
    · exact hother hj hne hlive
  · rw [freeStackPage, if_pos h0] at hm
    have hu := (hs.stack d hd hl).resolve_left h0
    have hpush := hs.owned.push (f := (s.tasks d).stackPhys) (by rw [hu]; exact nofun)
      (by rw [hu]; exact id) (by rw [hu]; exact nofun)
    have hpage := (hs.owned.page _ (by rw [hu]; exact nofun)).1
    have hout : SameOutside [(s.tasks d).stackPhys] s.machine.mem k.machine.mem := by
      rw [hm]
      exact .one hpage fun a ha => fill_outside (by omega)
    rw [← hm] at hpush
    refine ⟨_, _, ⟨hpush, fun j hj hlive => ?_, fun j hj => ?_⟩, fun f hf => ?_,
      .same (hs.spaceChange hroots (hs.owned.walks_sameOutside hout (fun f hf r p => ?_) _))⟩
    · by_cases hne : j = d
      · exact .inl (hne ▸ hdead (hne ▸ hlive))
      · refine (hother hj hne hlive).imp_right fun hj => ?_
        rw [Function.update_of_ne, hj]
        intro he
        rw [he, hu] at hj
        exact hne (Use.stack.inj hj).symm
    · have hj := htable j hj
      rw [Function.update_of_ne, hj]
      intro he
      rw [he, hu] at hj
      cases hj
    · rw [Function.update_of_ne, hf]
      rintro rfl
      rw [hu] at hf
      cases hf
    · rw [List.mem_singleton.mp hf, hu]
      exact nofun

theorem sysExit (hs : Safe use fl s) (hc : s.currentTask = some c) (hcn : c < s.numTasks)
    (ht : (s.tasks c).IsThread)
    (hw : ∀ w < s.numTasks, (s.tasks c).waitIdx = some w → s.live w) :
    Settles use s c q (sysExit s) := by
  have hne {j : ℕ} (hj : j ≠ c) : exitTasks s c j =
      { s.tasks j with
        state := if (s.tasks c).waitIdx = some j then .ready else (s.tasks j).state } := if_neg hj
  rw [sysExit_eq hc, freeUserMemory_thread ht]
  refine hs.release hcn (.inr hc) rfl (fun j hj => ?_) (fun j => ?_) (fun j hj hjc hlive => ?_)
    (fun _ => ?_) rfl
  · simp only [hne hj]
  · by_cases hj : j = c
    · simp only [exitTasks, hj, if_true]
    · simp only [hne hj]
  · refine hlive.imp_left fun hl => ?_
    by_cases hx : (s.tasks c).waitIdx = some j
    · exact hw j hj hx
    · simpa only [Kernel.live, hne hjc, if_neg hx] using hl
  · simp only [exitTasks, if_true]

theorem sysKill {pid : ℕ} (hs : Safe use fl s)
    (ht : ∀ i, s.findLive pid = some i → (s.tasks i).IsThread ∧ s.currentTask ≠ some i) :
    Settles use s c q (sysKill s pid).2 := by
  unfold Mukrn.sysKill
  split
  · exact hs.settles_refl
  next i hi =>
    obtain ⟨hthread, hcur⟩ := ht i hi
    obtain ⟨hin, -, hstate⟩ := Kernel.findLive_spec hi
    have hlive : s.live i := by simpa [Kernel.live] using hstate
    simp only [freeUserMemory_thread hthread]
    have hk := KeepsSlots.setState .exited (.inl hlive : s.live i ∨ s.currentTask = some i)
    refine hs.release hin (.inl hlive) rfl (fun j _ => hk.stackPhys j) hk.pml4Phys
      (fun j hj _ => hk.alive j hj) (fun hl => ?_) rfl
    rcases hl with hl | hl
    · simp [Kernel.live, Kernel.setState, Kernel.setTask] at hl
    · exact absurd hl hcur

theorem sysSpawnAt (io : Ports) {addr size : ℕ} {res : ℤ × Kernel} (hs : Safe use fl s)
    (hgood : GoodImage s addr size) (hc : sysSpawnAt s addr size = some res) :
    Settles use s c (.call io (.spawnAt addr size)) res.2 := by
  obtain ⟨use', fl', hs', hpres, hadd⟩ := sysSpawnAt_safe hs hgood hc
  refine ⟨use', fl', hs', fun f hf => hpres.data f hf trivial,
    .spawned (fun ok ha i hi va => ?_) fun i hi => ?_⟩
  · exact hpres.walks ok ha _ (shape_eq_some.mpr (hs.root i hi)) va id
  · cases hadd with
    | refused h => exact .inl ⟨i, hi, rfl⟩
    | added hn hg =>
      by_cases he : i = s.numTasks
      · exact .inr ⟨by simp [Mukrn.addTask, he, newTask, ipcInitTask], hn, hg⟩
      · refine .inl ⟨i, Nat.lt_of_le_of_ne (Nat.le_of_lt_succ hi) he, ?_⟩
        simp [Mukrn.addTask, he]

end Safe

section TableOnly

variable {s k : Kernel} {c : ℕ}

theorem KeepsSlots.enqueue {i pid type len : ℕ} {data : ℕ → UInt8} (hl : s.live i) :
    KeepsSlots s (s.setTask i ((s.tasks i).enqueue pid type len data)) :=
  .setTask rfl rfl (.inr (.inl hl))

theorem KeepsSlots.irqEffect (s : Kernel) (io : Ports) (n : ℕ) :
    KeepsSlots s (irqEffect s io n) ∧ (irqEffect s io n).machine = s.machine := by
  unfold Mukrn.irqEffect
  split
  · exact ⟨⟨rfl, fun _ => rfl, fun _ => rfl, fun _ _ h => h⟩, rfl⟩
  split
  · unfold keyboardIrq
    split
    · exact ⟨.refl s, rfl⟩
    split
    next h => exact ⟨.enqueue h.2.1, rfl⟩
    · exact ⟨.refl s, rfl⟩
  · exact ⟨.refl s, rfl⟩

theorem irqEffect_currentTask (s : Kernel) (io : Ports) (n : ℕ) :
    (irqEffect s io n).currentTask = s.currentTask := by
  unfold irqEffect keyboardIrq
  repeat' split
  all_goals rfl

theorem KeepsSlots.woken {uaddr : ℕ} (h : Woken uaddr s k) : KeepsSlots s k := by
  obtain ⟨st, l, rfl, -, -, hst⟩ := h
  refine ⟨rfl, fun _ => rfl, fun _ => rfl, fun i _ hl => hl.imp_left fun hl => ?_⟩
  rcases hst i with ⟨hb, -⟩ | ⟨-, he⟩
  · simp [Kernel.live, hb]
  · simpa [Kernel.live, he] using hl

variable (hc : s.currentTask = some c)
include hc

theorem KeepsSlots.setCurrentState (st : TaskState) :
    KeepsSlots s (s.setCurrentState st) ∧ (s.setCurrentState st).machine = s.machine := by
  rw [Kernel.setCurrentState_eq st hc]
  exact ⟨.setState st (.inr hc), rfl⟩

theorem KeepsSlots.sleepLoop (start target : ℕ) :
    KeepsSlots s (sleepLoop s start target).kernel ∧
      (sleepLoop s start target).kernel.machine = s.machine := by
  unfold Mukrn.sleepLoop
  split
  · exact KeepsSlots.setCurrentState hc .blocked
  · exact KeepsSlots.setCurrentState hc .running

theorem KeepsSlots.sysWait (pid : ℕ) :
    KeepsSlots s (sysWait s pid).2 ∧ (sysWait s pid).2.machine = s.machine := by
  unfold Mukrn.sysWait
  split
  · exact ⟨.refl s, rfl⟩
  next i hi =>
    split
    · exact ⟨.refl s, rfl⟩
    next he =>
      have hl : s.live i := by simpa [Kernel.live] using he
      have hset : KeepsSlots s (s.setTask i { s.tasks i with waitIdx := s.currentTask }) :=
        .setTask rfl rfl (.inr (.inl hl))
      obtain ⟨hk, hm⟩ := KeepsSlots.setCurrentState
        (s := s.setTask i { s.tasks i with waitIdx := s.currentTask }) hc .blocked
      exact ⟨hset.trans hk, hm⟩

theorem KeepsSlots.sysWaitAny :
    KeepsSlots s (sysWaitAny s).2 ∧ (sysWaitAny s).2.machine = s.machine := by
  unfold Mukrn.sysWaitAny
  split
  · exact ⟨.refl s, rfl⟩
  · let tasks := fun i =>
      if i < s.numTasks ∧ s.live i ∧ some i ≠ s.currentTask then
        { s.tasks i with waitIdx := s.currentTask }
      else s.tasks i
    have htasks (i : ℕ) : tasks i = s.tasks i ∨
        tasks i = { s.tasks i with waitIdx := s.currentTask } := by
      simp only [tasks]
      split
      · exact .inr rfl
      · exact .inl rfl
    have hset : KeepsSlots s { s with tasks := tasks } := by
      refine ⟨rfl, fun i => ?_, fun i => ?_, fun i _ hl => hl.imp_left fun hl => ?_⟩
      · rcases htasks i with h | h <;> simp only [h]
      · rcases htasks i with h | h <;> simp only [h]
      · rcases htasks i with h | h <;> simpa only [Kernel.live, h] using hl
    obtain ⟨hk, hm⟩ := KeepsSlots.setCurrentState (s := { s with tasks := tasks }) hc .blocked
    exact ⟨hset.trans hk, hm⟩

theorem KeepsSlots.sysFutex {uaddr val : ℕ} {op : ℤ} {res : ℤ × Kernel}
    (h : sysFutex s uaddr op val = some res) :
    KeepsSlots s res.2 ∧ res.2.machine = s.machine := by
  unfold Mukrn.sysFutex at h
  split at h
  next hn => cases hc.symm.trans hn
  next d hd =>
  obtain rfl := Option.some.inj (hc.symm.trans hd)
  split at h
  · obtain ⟨word, -, rfl⟩ := Option.map_eq_some_iff.mp h
    split
    · exact ⟨.refl s, rfl⟩
    split
    · exact ⟨.refl s, rfl⟩
    · have hadd : KeepsSlots s { s with futexWaiters := s.futexWaiters ++ [.mk uaddr c] } :=
        ⟨rfl, fun _ => rfl, fun _ => rfl, fun _ _ h => h⟩
      exact ⟨hadd.trans (.setState .blocked (.inr hc)), rfl⟩
  split at h
  · obtain rfl := Option.some.inj h
    have hw := futexWakeLoop_woken uaddr (toInt val) s.futexWaiters.length 0 0 s
    refine ⟨.woken hw, ?_⟩
    obtain ⟨st, l, he, -⟩ := hw
    rw [he]
  · obtain rfl := Option.some.inj h
    exact ⟨.refl s, rfl⟩

/-- The calls that only look at the task table or change it. -/
def Syscall.isTableCall : Syscall → Bool
  | .exit | .kill _ | .spawnAt .. | .mmap .. | .munmap .. | .mprotect .. | .brk _ | .mmapPhys ..
  | .recv _ | .clone .. => false
  | _ => true

theorem KeepsSlots.tableCall {io : Ports} {call : Syscall} {o : SysOutcome}
    (ht : call.isTableCall) (ho : syscallHandler s io call = some o) :
    KeepsSlots s o.kernel ∧ o.kernel.machine = s.machine := by
  cases call with
  | exit | kill | spawnAt | mmap | munmap | mprotect | brk | mmapPhys | recv | clone => cases ht
  | send targetPid type data len =>
    obtain ⟨res, hres, rfl⟩ := Option.map_eq_some_iff.mp ho
    rcases sysSend_cases hres with rfl | ⟨i, bytes, hi, -, -, rfl⟩
    · exact ⟨.refl s, rfl⟩
    · exact ⟨.enqueue (by simpa [Kernel.live] using (Kernel.findLive_spec hi).2.2), rfl⟩
  | wait pid =>
    obtain rfl := Option.some.inj ho
    exact KeepsSlots.sysWait hc pid
  | waitAny =>
    obtain rfl := Option.some.inj ho
    exact KeepsSlots.sysWaitAny hc
  | irqRegister irq =>
    obtain rfl := Option.some.inj ho
    unfold sysIrqRegister
    split
    · exact ⟨.refl s, rfl⟩
    split
    · exact ⟨.refl s, rfl⟩
    · exact ⟨⟨rfl, fun _ => rfl, fun _ => rfl, fun _ _ h => h⟩, rfl⟩
  | nanosleep ns =>
    obtain rfl := Option.some.inj ho
    exact KeepsSlots.sleepLoop hc _ _
  | futex uaddr op val =>
    obtain ⟨res, hres, rfl⟩ := Option.map_eq_some_iff.mp ho
    exact KeepsSlots.sysFutex hc hres
  | _ =>
    obtain rfl := Option.some.inj ho
    exact ⟨.refl s, rfl⟩

end TableOnly

/-- What the end of the task in slot `c` needs: it has no user memory to give back, and its
recorded waiter is alive. -/
def SoundExit (s : Kernel) (c : ℕ) : Prop :=
  (s.tasks c).IsThread ∧ ∀ w < s.numTasks, (s.tasks c).waitIdx = some w → s.live w

/-- What a call of slot `c` needs to keep the kernel safe. -/
def SoundCall (s : Kernel) (c : ℕ) : Syscall → Prop
  | .exit => SoundExit s c
  | .recv msg => ∀ h, (s.tasks c).ipcCount ≠ 0 →
      writeUserMsg s.machine msg ((s.tasks c).ipcQueue (s.tasks c).ipcTail) = some h →
      Harmless s h.mem
  | .kill pid => ∀ i, s.findLive pid = some i → (s.tasks i).IsThread ∧ i ≠ c
  | .mprotect virt size _ => ∀ v ∈ pageCursor (rangeStart virt) (rangeEnd virt size),
      ¬ HugeAt s.machine.mem (s.tasks c).pml4Phys v
  | .spawnAt addr size => GoodImage s addr size
  | _ => True

def SoundRequest (s : Kernel) (c : ℕ) : Request → Prop
  | .store virt b => ∀ h, userStore s.machine virt b = some h → Harmless s h.mem
  | .fault => SoundExit s c
  | .call _ call => SoundCall s c call
  | _ => True

section

variable {use : ℕ → Use} {fl : List ℕ} {s : Kernel} {c : ℕ} (hs : Safe use fl s)
  (hc : s.currentTask = some c) (hcn : c < s.numTasks)
include hs hc hcn

theorem Safe.syscall {io : Ports} {call : Syscall} {o : SysOutcome}
    (hq : SoundCall s c call) (ho : syscallHandler s io call = some o) :
    Settles use s c (.call io call) o.kernel := by
  by_cases ht : call.isTableCall
  · obtain ⟨hk, hm⟩ := KeepsSlots.tableCall hc ht ho
    exact hs.settles_slots hk hm
  cases call with
  | exit =>
    obtain rfl := Option.some.inj ho
    exact hs.sysExit hc hcn hq.1 hq.2
  | recv msg =>
    obtain ⟨res, hres, rfl⟩ := Option.map_eq_some_iff.mp ho
    rcases sysRecv_cases hres with rfl | ⟨d, h, hd, hcount, hw, rfl⟩
    · exact hs.settles_refl
    · obtain rfl := Option.some.inj (hc.symm.trans hd)
      exact hs.settles_harmless (writeUserMsg_eq hw) (hq h hcount hw)
        (.setTask rfl rfl (.inr (.inr hc))) rfl
  | mmap virt size flags =>
    obtain rfl := Option.some.inj ho
    exact hs.sysMmap hc hcn io virt size flags
  | munmap virt size =>
    obtain rfl := Option.some.inj ho
    exact hs.sysMunmap hc hcn io virt size
  | kill pid =>
    obtain rfl := Option.some.inj ho
    refine hs.sysKill fun i hi => ?_
    obtain ⟨hthread, hne⟩ := hq i hi
    exact ⟨hthread, fun he => hne (Option.some.inj (he.symm.trans hc))⟩
  | mprotect virt size flags =>
    obtain rfl := Option.some.inj ho
    exact hs.sysMprotect hc hcn io flags hq
  | brk addr =>
    obtain rfl := Option.some.inj ho
    exact hs.sysBrk hc hcn io addr
  | clone flags userStack entry arg =>
    obtain rfl := Option.some.inj ho
    exact hs.sysClone hc hcn flags userStack entry arg
  | mmapPhys virt phys size flags =>
    obtain rfl := Option.some.inj ho
    exact hs.sysMmapPhys hc hcn io virt phys size flags
  | spawnAt addr size =>
    obtain ⟨res, hres, rfl⟩ := Option.map_eq_some_iff.mp ho
    exact hs.sysSpawnAt io hq hres
  | _ => exact absurd rfl ht

end

/-- A sound request keeps the kernel safe and has the effect listed for it. -/
theorem Safe.served {use : ℕ → Use} {fl : List ℕ} {x : System} {c : ℕ} {q : Request} {k : Kernel}
    (hs : Safe use fl x.kernel) (hc : x.kernel.currentTask = some c) (hcn : c < x.kernel.numTasks)
    (hq : SoundRequest x.kernel c q) (h : Served x q k) : Settles use x.kernel c q k := by
  cases h with
  | none => exact hs.settles_refl
  | store hw =>
    obtain ⟨-, a, -, rfl⟩ := userStore_cases hw
    exact hs.settles_harmless rfl (hq _ hw) (.refl _) rfl
  | fault => exact hs.sysExit hc hcn hq.1 hq.2
  | irq =>
    obtain ⟨hk, hm⟩ := KeepsSlots.irqEffect x.kernel _ _
    exact hs.settles_slots hk hm
  | call ho => exact hs.syscall hc hcn hq ho
  | @asleep io n start target =>
    obtain ⟨hk, hm⟩ := KeepsSlots.irqEffect x.kernel io n
    have hc' : (irqEffect x.kernel io n).currentTask = some c :=
      (irqEffect_currentTask x.kernel io n).trans hc
    obtain ⟨hk', hm'⟩ := KeepsSlots.sleepLoop hc' start target
    exact hs.settles_slots (hk.trans hk') (hm'.trans hm)

/-- The slot chosen is the caller itself or one that is ready. -/
theorem nextTask_ready (s : Kernel) (c : ℕ) :
    nextTask s c = c ∨ (s.tasks (nextTask s c)).state = .ready := by
  unfold nextTask scheduleNext
  split
  · exact .inl rfl
  split
  next n hn =>
    right
    simpa [isReady] using List.find?_some hn
  · exact .inl rfl

section Finish

variable {use : ℕ → Use} {fl : List ℕ} {s k : Kernel} {c : ℕ}

theorem KeepsSlots.saveFrame (hc : s.currentTask = some c) (r : Registers) :
    KeepsSlots s (saveFrame s c r) := by
  have h : KeepsSlots s (s.setTask c { s.tasks c with rsp := (s.tasks c).stackPhys }) :=
    .setTask rfl rfl (.inr (.inr hc))
  exact ⟨h.numTasks, h.stackPhys, h.pml4Phys, h.alive⟩

theorem KeepsSlots.dispatched {n : ℕ} (hn : s.live n ∨ s.currentTask = some n) :
    KeepsSlots s (dispatched s n) := by
  have h := KeepsSlots.setState .running hn
  refine ⟨h.numTasks, h.stackPhys, h.pml4Phys, fun i hi hl => ?_⟩
  rcases hl with hl | hl
  · exact h.alive i hi (.inl hl)
  · obtain rfl := Option.some.inj hl
    exact hn

theorem KeepsSlots.yieldCaller (hc : s.currentTask = some c) (r : Registers) :
    KeepsSlots s (yieldCaller s c r) ∧ (yieldCaller s c r).currentTask = some c := by
  unfold Mukrn.yieldCaller
  dsimp only
  split
  · exact ⟨(KeepsSlots.saveFrame hc r).trans (.setState .ready (.inr hc)), hc⟩
  · exact ⟨KeepsSlots.saveFrame hc r, hc⟩

theorem dispatched_mem (s : Kernel) (n : ℕ) : (dispatched s n).machine.mem = s.machine.mem := by
  unfold dispatched
  dsimp only
  split <;> rfl

theorem dispatched_freeStack (s : Kernel) (n : ℕ) :
    (dispatched s n).machine.freeStack = s.machine.freeStack := by
  unfold dispatched
  dsimp only
  split <;> rfl

theorem yieldCaller_machine (s : Kernel) (c : ℕ) (r : Registers) :
    (yieldCaller s c r).machine = (saveFrame s c r).machine := by
  unfold yieldCaller
  dsimp only
  split <;> rfl

theorem dispatch_kernel (s : Kernel) (n : ℕ) : (dispatch s n).system.kernel = dispatched s n := by
  rw [dispatch_eq]
  rfl

/-- The slot chosen next was alive or current. -/
private theorem KeepsSlots.dispatchNext (hc : k.currentTask = some c) :
    KeepsSlots k (Mukrn.dispatched k (nextTask k c)) := by
  apply KeepsSlots.dispatched
  rcases nextTask_ready k c with h | h
  · exact .inr (hc.trans (congrArg some h.symm))
  · exact .inl (by simp [Kernel.live, h])

/-- The end of a trap neither moves pages between slots nor revives a dead task. -/
theorem Finish.keepsSlots {y : System} (hf : Finish k y) : KeepsSlots k y.kernel := by
  cases hf with
  | stay p => exact .refl k
  | @timer c r hc =>
    rw [dispatch_kernel]
    have hsave : KeepsSlots k (preempt k c r) :=
      (KeepsSlots.saveFrame hc r).trans (.setState .ready (.inr hc))
    exact hsave.trans (.dispatchNext hc)
  | @call c r hc =>
    rw [dispatch_kernel]
    obtain ⟨hsave, hc'⟩ := KeepsSlots.yieldCaller hc r
    exact hsave.trans (.dispatchNext hc')
  | @fault i hx hi =>
    rw [dispatch_kernel]
    have hr : (k.tasks i).state = .ready := by simpa [isReady] using List.find?_some hi
    exact .dispatched (.inl (by simp [Kernel.live, hr]))

/-- At most a frame of the current task is written when a trap ends. -/
theorem Finish.machine {y : System} (hf : Finish k y) :
    y.kernel.machine.freeStack = k.machine.freeStack ∧
      (y.kernel.machine.mem = k.machine.mem ∨ ∃ c r, k.currentTask = some c ∧
        y.kernel.machine.mem = storeFrame k.machine.mem (k.tasks c).stackPhys r) := by
  cases hf with
  | stay p => exact ⟨rfl, .inl rfl⟩
  | @timer c r hc =>
    rw [dispatch_kernel, dispatched_mem, dispatched_freeStack]
    exact ⟨rfl, .inr ⟨c, r, hc, rfl⟩⟩
  | @call c r hc =>
    rw [dispatch_kernel, dispatched_mem, dispatched_freeStack, yieldCaller_machine]
    exact ⟨rfl, .inr ⟨c, r, hc, rfl⟩⟩
  | fault hx hi =>
    rw [dispatch_kernel, dispatched_mem, dispatched_freeStack]
    exact ⟨rfl, .inl rfl⟩

/-- The end of a trap keeps the kernel safe and the translations as they are. -/
theorem Safe.finish {y : System} (hs : Safe use fl k)
    (hcn : ∀ c, k.currentTask = some c → c < k.numTasks) (hf : Finish k y) :
    Safe use fl y.kernel ∧
      WalksAgree (shape use) (fun _ _ => False) k.machine.mem y.kernel.machine.mem := by
  obtain ⟨hfree, hmem⟩ := hf.machine
  have hslots : KeepsSlots { k with machine := y.kernel.machine } y.kernel :=
    let h := hf.keepsSlots
    ⟨h.numTasks, h.stackPhys, h.pml4Phys, h.alive⟩
  have hmachine {m : Mem} (ho : Owned use fl { k.machine with mem := m })
      (hm : y.kernel.machine.mem = m) : Safe use fl y.kernel := by
    have ho' : Owned use fl y.kernel.machine := by
      have he : y.kernel.machine =
          pagingSwitch { k.machine with mem := m } y.kernel.machine.pagingRoot := by
        simp only [← hm, ← hfree]
        rfl
      rw [he]
      exact ho.switch _
    exact (hs.machine ho' (fun _ _ h => h) fun _ _ => rfl).slots hslots rfl
  rcases hmem with hmem | ⟨c, r, hc, hmem⟩
  · exact ⟨hmachine hs.owned hmem, fun _ _ _ _ _ _ => by rw [hmem]⟩
  · obtain ⟨ha, hu, hu'⟩ : (k.tasks c).stackPhys % 4096 = 0 ∧
        ¬ (use (k.tasks c).stackPhys).Critical ∧
        ∀ r p, use (k.tasks c).stackPhys ≠ .table r p := by
      rcases hs.stack c (hcn c hc) (.inr hc) with h | h
      · rw [h, hs.owned.use_zero]
        exact ⟨rfl, id, nofun⟩
      · rw [h]
        exact ⟨(hs.owned.page _ (by rw [h]; exact nofun)).1, id, nofun⟩
    have hout : SameOutside [(k.tasks c).stackPhys] k.machine.mem y.kernel.machine.mem := by
      rw [hmem]
      exact .one ha fun a ha => storeWords_outside (by omega)
    refine ⟨hmachine (hs.owned.storeFrame ha hu r) hmem,
      hs.owned.walks_sameOutside hout (fun f hf => ?_) _⟩
    rw [List.mem_singleton.mp hf]
    exact hu'

end Finish

end Mukrn
