import Mukrn.Memory.FreeList
import Mukrn.Memory.Load

/-! Creations that fail. Some exits of the creation paths give back what they had taken, others
keep it; the exits are told apart by where they leave the free list. -/
namespace Mukrn
open ByteMemory LinkedStack

/-- The free frames are those of the given list, in some order. -/
def SameFree (fl : List ℕ) (h : Machine) : Prop :=
  ∃ fl', Chain (load64 h.mem) 0 h.freeStack fl' ∧ fl'.Perm fl

/-- Nothing that a failed creation could leave behind: free frames, task table and root. -/
structure Unchanged (fl : List ℕ) (s s' : Kernel) : Prop where
  free : SameFree fl s'.machine
  tasks : s'.tasks = s.tasks
  numTasks : s'.numTasks = s.numTasks
  nextPid : s'.nextPid = s.nextPid
  root : s'.machine.pagingRoot = s.machine.pagingRoot

section SameFree

variable {h : Machine} {fl pages : List ℕ} {k : ℕ}
  (hpage : ∀ f ∈ fl, (f % 4096 = 0 ∧ f < 2 ^ 64) ∧ 0 < f)
include hpage

/-- The list found is a proper free list. -/
private theorem freeList_of_perm (hnd : fl.Nodup) {fl' : List ℕ}
    (hc : Chain (load64 h.mem) 0 h.freeStack fl') (hp : fl'.Perm fl) : FreeList h fl' :=
  ⟨hc, hp.nodup_iff.mpr hnd, fun f hf => (hpage f (hp.subset hf)).1⟩

/-- Giving back pages that the list had lost. -/
theorem sameFree_pushAll (hnd : (pages ++ fl).Nodup)
    (hpages : ∀ f ∈ pages, (f % 4096 = 0 ∧ f < 2 ^ 64) ∧ 0 < f) (htop : h.freeStack < 2 ^ 64) :
    SameFree (pages ++ fl) (pmmFreePages h pages) ↔ SameFree fl h := by
  have hall : ∀ f ∈ pages ++ fl, (f % 4096 = 0 ∧ f < 2 ^ 64) ∧ 0 < f := by
    intro f hf
    rcases List.mem_append.mp hf with hf | hf
    · exact hpages f hf
    · exact hpage f hf
  constructor
  · rintro ⟨l, hc, hp⟩
    have hl := freeList_of_perm hall hnd hc hp
    obtain ⟨l', rfl, hl'⟩ := FreeList.of_pushAll htop hl fun f hf =>
      ⟨(hpages f hf).1.2, (hpages f hf).2.ne'⟩
    refine ⟨l', hl'.chain, ?_⟩
    have hrev : (pages.reverse ++ l').Perm (pages ++ l') :=
      (List.reverse_perm pages).append_right l'
    exact (List.perm_append_left_iff pages).mp (hrev.symm.trans hp)
  · rintro ⟨l, hc, hp⟩
    obtain ⟨hnd1, hnd2, hdisj⟩ := List.nodup_append'.mp hnd
    have hl := freeList_of_perm hpage hnd2 hc hp
    have hpush := hl.pushAll (fun f hf => ⟨(hpages f hf).1, (hpages f hf).2, fun hm =>
      hdisj hf (hp.subset hm)⟩) hnd1
    exact ⟨_, hpush.chain, (List.reverse_perm pages).append hp⟩

/-- Taking a page and giving it back. -/
theorem sameFree_return (hnd : fl.Nodup) (hk : h.freeStack = k) (h0 : k ≠ 0) :
    SameFree fl (pmmFreePage (h.take k) k) ↔ SameFree fl h := by
  constructor
  · rintro ⟨l, hc, hp⟩
    have hl := freeList_of_perm hpage hnd hc hp
    have htop : (h.take k).freeStack < 2 ^ 64 := load64_lt h.mem k
    obtain ⟨l', rfl, hl'⟩ := FreeList.of_push htop hl h0
    refine ⟨k :: l', ⟨hk, h0, ?_⟩, hp⟩
    apply hl'.chain.congr
    intro g hg
    apply load_congr
    intro i hi
    have hkp := hl.page k List.mem_cons_self
    have hgp := hl'.page g hg
    have hne : g ≠ k := fun he => (List.nodup_cons.mp hl.nodup).1 (he ▸ hg)
    exact (h.take_outside (by omega)).symm
  · rintro ⟨l, hc, hp⟩
    have hl := freeList_of_perm hpage hnd hc hp
    obtain ⟨l', rfl, -⟩ := hl.chain.exists_cons (hk ▸ h0)
    rw [hk] at hl hp
    have hkp := hpage k (hp.subset List.mem_cons_self)
    exact ⟨_, (hl.take.push hkp.1 hkp.2 (List.nodup_cons.mp hl.nodup).1).chain, hp⟩

/-- One page pushed on an empty list. -/
theorem sameFree_single (hnd : fl.Nodup) (hk : h.freeStack = 0) (h0 : k ≠ 0) :
    SameFree fl (pmmFreePage h k) ↔ fl = [k] := by
  constructor
  · rintro ⟨l, hc, hp⟩
    have hl := freeList_of_perm hpage hnd hc hp
    obtain ⟨l', rfl, hl'⟩ := FreeList.of_push (by rw [hk]; decide) hl h0
    obtain rfl := hl'.eq_nil_iff.mpr hk
    exact List.singleton_perm.mp hp |>.symm
  · rintro rfl
    have hkp := hpage k List.mem_cons_self
    have hempty : FreeList h [] := ⟨hk, List.nodup_nil, fun f hf => by cases hf⟩
    exact ⟨[k], (hempty.push hkp.1 hkp.2 List.not_mem_nil).chain, .refl _⟩

omit hpage in
/-- With the list exhausted nothing is free. -/
theorem not_sameFree_empty (hk : h.freeStack = 0) (hn : fl ≠ []) : ¬ SameFree fl h := by
  rintro ⟨l, hc, hp⟩
  rw [hk, chain_nil_iff] at hc
  subst hc
  exact hn (List.nil_perm.mp hp)

end SameFree

section Exhausted

theorem pmmAllocPage_zero {h : Machine} (h0 : (pmmAllocPage h).1 = 0) :
    pmmAllocPage h = (0, h) ∧ h.freeStack = 0 := by
  unfold pmmAllocPage at h0 ⊢
  split
  next hz => exact ⟨rfl, hz⟩
  next hz =>
    rw [if_neg hz] at h0
    exact absurd h0 hz

/-- A clone of the boot tables fails only when it has used up the list. -/
theorem pagingCloneKernel_exhausted {h : Machine} (hc : (pagingCloneKernel h).1 = 0) :
    (pagingCloneKernel h).2.freeStack = 0 := by
  unfold pagingCloneKernel at hc ⊢
  dsimp only at hc ⊢
  have hlast (h : Machine) (hz : h.freeStack = 0) : (pmmAllocPage h).2.freeStack = 0 := by
    rw [pmmAllocPage, if_pos hz]
    exact hz
  split
  next hz =>
    rcases hz with hz | hz | hz
    · exact hlast _ (hlast _ (hlast _ (pmmAllocPage_zero hz).2))
    · exact hlast _ (hlast _ (pmmAllocPage_zero hz).2)
    · exact hlast _ (pmmAllocPage_zero hz).2
  next hz =>
    rw [if_neg hz] at hc
    exact absurd (.inl hc) hz

theorem mapFresh_exhausted {flags : ℕ} {vs : List ℕ} {h : Machine}
    (hf : (mapFresh flags h vs).1 = false) : (mapFresh flags h vs).2.freeStack = 0 := by
  induction vs generalizing h with
  | nil => cases hf
  | cons v vs ih =>
    simp only [mapFresh] at hf ⊢
    by_cases hz : (pmmAllocPage h).1 = 0
    · rw [if_pos hz, (pmmAllocPage_zero hz).1]
      exact (pmmAllocPage_zero hz).2
    · rw [if_neg hz] at hf ⊢
      exact ih hf

theorem mapSegment_exhausted {ph : ℕ} {vs : List ℕ} {h : Machine}
    (hf : (mapSegment ph h vs).1 = false) : (mapSegment ph h vs).2.freeStack = 0 := by
  induction vs generalizing h with
  | nil => cases hf
  | cons v vs ih =>
    simp only [mapSegment] at hf ⊢
    by_cases hz : (pmmAllocPage h).1 = 0
    · rw [if_pos hz, (pmmAllocPage_zero hz).1]
      exact (pmmAllocPage_zero hz).2
    · rw [if_neg hz] at hf ⊢
      exact ih hf

theorem loadSegments_exhausted {buf fuel i : ℕ} {h h' : Machine}
    (hf : loadSegments buf fuel i h = some (false, h')) : h'.freeStack = 0 := by
  induction fuel generalizing i h with
  | zero => cases hf
  | succ fuel ih =>
    simp only [loadSegments] at hf
    split at hf
    · split at hf
      · exact ih hf
      · split at hf
        · obtain ⟨h2, -, hf⟩ := Option.bind_eq_some_iff.mp hf
          exact ih hf
        next hno =>
          obtain ⟨-, rfl⟩ := Prod.mk.inj (Option.some.inj hf)
          exact mapSegment_exhausted (by simpa using hno)
    · cases hf

theorem loadImage_exhausted {buf top : ℕ} {h h' : Machine}
    (hf : loadImage buf top h = some (false, h')) : h'.freeStack = 0 := by
  obtain ⟨⟨ok, h1⟩, hseg, hf⟩ := Option.bind_eq_some_iff.mp hf
  cases ok with
  | false =>
    obtain ⟨-, rfl⟩ := Prod.mk.inj (Option.some.inj hf)
    exact loadSegments_exhausted hseg
  | true =>
    have hf := Option.some.inj hf
    have h1f : (mapFresh (pagePresent ||| pageWritable ||| pageUser) h1 (stackPages top)).1 =
      false := by
      rw [hf]
    have hz := mapFresh_exhausted h1f
    rwa [hf] at hz

end Exhausted

/-- The staging loop on a list that is long enough. -/
theorem stagePages_enough {n : ℕ} {h : Machine} {fl : List ℕ} (pages : List ℕ)
    (hl : FreeList h fl) (hn : n ≤ fl.length) :
    ∃ h', stagePages n h pages = (some (pages ++ fl.take n), h') ∧ FreeList h' (fl.drop n) ∧
      SameOutside (fl.take n) h.mem h'.mem := by
  induction n generalizing h fl pages with
  | zero => exact ⟨h, by rw [List.take_zero, List.append_nil]; rfl, hl, fun _ _ => rfl⟩
  | succ n ih =>
    cases fl with
    | nil => cases hn
    | cons f fl =>
      obtain ⟨h', hs, hl', hout⟩ := ih (pages ++ [f]) hl.take (Nat.le_of_succ_le_succ hn)
      have htake : SameOutside [f] h.mem (h.take f).mem :=
        .one (hl.page f List.mem_cons_self).1 fun a ha => h.take_outside ha
      refine ⟨h', ?_, hl', htake.trans hout⟩
      simp only [stagePages, hl.alloc_cons, if_neg (hl.pos List.mem_cons_self).ne', hs]
      rw [List.append_assoc]
      rfl

/-- On a list that is too short everything taken is pushed again. -/
theorem stagePages_short {n : ℕ} {h : Machine} {fl : List ℕ} (pages : List ℕ)
    (hl : FreeList h fl) (hn : fl.length < n) :
    ∃ h', stagePages n h pages = (none, pmmFreePages h' (pages ++ fl)) ∧ FreeList h' [] := by
  induction n generalizing h fl pages with
  | zero => cases hn
  | succ n ih =>
    cases fl with
    | nil =>
      refine ⟨h, ?_, hl⟩
      simp only [stagePages, hl.alloc_nil, if_true, List.append_nil]
    | cons f fl =>
      obtain ⟨h', hs, hl'⟩ := ih (pages ++ [f]) hl.take (Nat.lt_of_succ_lt_succ hn)
      refine ⟨h', ?_, hl'⟩
      simp only [stagePages, hl.alloc_cons, if_neg (hl.pos List.mem_cons_self).ne', hs]
      rw [List.append_assoc]
      rfl

/-- A published task shows in the table: a new slot, or a slot whose task had exited. -/
theorem addTask_changes {s : Kernel} {h : Machine} {reuse : Option ℕ}
    {wantPid kstack pml4 loadAddr codePages : ℕ} {fl : List ℕ}
    (hr : reuse = findReuse s wantPid ∨ reuse = none)
    (hlive : ¬ (0 < wantPid ∧ (s.findLive wantPid).isSome)) :
    ¬ Unchanged fl s (addTask s h reuse wantPid kstack pml4 loadAddr codePages).2 := by
  intro hu
  cases reuse with
  | none =>
    have hn : s.numTasks + 1 = s.numTasks := hu.numTasks
    omega
  | some i =>
    have hr := (hr.resolve_right (Option.some_ne_none i)).symm
    unfold findReuse at hr
    split at hr
    next hpos =>
      have hnone : s.findLive wantPid = none := by simpa [hpos] using hlive
      have hmem := List.mem_reverse.mp (List.mem_of_find?_eq_some hr)
      have hpid := List.find?_some hr
      have hdead := List.find?_eq_none.mp hnone i hmem
      have hst : (s.tasks i).state = .exited := by
        simpa [Kernel.live, beq_iff_eq.mp hpid] using hdead
      have hready := congrArg (fun f => (f i).state) hu.tasks
      simp only [addTask, Kernel.setTask, Option.getD_some, Function.update_self, hst] at hready
      cases hready
    next => cases hr

/-- An exit of the flat path that leaves everything as it was. -/
def FlatClean (s : Kernel) (fl : List ℕ) (size : ℕ) : Prop :=
  maxTasks ≤ s.numTasks ∨ 16 < (size + 4095) % 2 ^ 64 / 4096 ∨ fl = []

/-- An exit of the ELF path that leaves everything as it was: the staging pages are all that was
taken, or the kernel stack was the last free page and is returned with them. -/
def ElfClean (s : Kernel) (fl : List ℕ) (size wantPid : ℕ) : Prop :=
  size < 64 ∨ 65536 < size ∨ maxTasks ≤ s.numTasks ∨ (0 < wantPid ∧ (s.findLive wantPid).isSome) ∨
    fl.length ≤ (size + 4095) / 4096 + 1

/-- The copy of a file to the staging buffer, judged before it is made: the buffer reaches into no
page that stays free, and the first word of the file can be read whatever the pages taken hold. -/
structure StagesApart (h : Machine) (fl : List ℕ) (binary size : ℕ) : Prop where
  rest : ∀ f ∈ fl.drop ((size + 4095) / 4096), f + 8 ≤ fl.headD 0 ∨ fl.headD 0 + size ≤ f
  magic : ∀ m, SameOutside (fl.take ((size + 4095) / 4096)) h.mem m →
    ∀ i < 4, readUser { h with mem := m } binary i = readUser h binary i

/-- An exit of `task_create` that leaves everything as it was. -/
def CreationClean (s : Kernel) (fl : List ℕ) (binary size wantPid : ℕ) : Prop :=
  if 4 ≤ size ∧ readUser32 s.machine binary = some elfMagic then ElfClean s fl size wantPid
  else FlatClean s fl size

/-- An exit of `sys_spawn_at` that leaves everything as it was. -/
def SpawnClean (s : Kernel) (fl : List ℕ) (addr size : ℕ) : Prop :=
  addr = 0 ∨ size < 4 ∨ readUser32 s.machine addr ≠ some elfMagic ∨ ElfClean s fl size 0

section Exits

variable {s s' : Kernel} {fl : List ℕ}

/-- When only memory has changed, the free frames decide. -/
private theorem unchanged_iff {h : Machine} (hr : h.pagingRoot = s.machine.pagingRoot) :
    Unchanged fl s { s with machine := h } ↔ SameFree fl h :=
  ⟨fun hu => hu.free, fun hf => ⟨hf, rfl, rfl, rfl, hr⟩⟩

private theorem unchanged_self (hl : FreeList s.machine fl) : Unchanged fl s s :=
  ⟨⟨fl, hl.chain, .refl fl⟩, rfl, rfl, rfl, rfl⟩

theorem createFlat_unchanged {binary size loadAddr wantPid : ℕ} (hl : FreeList s.machine fl)
    (hc : createFlat s binary size loadAddr wantPid = some (-1, s')) :
    Unchanged fl s s' ↔ FlatClean s fl size := by
  have hsame (he : some (-1, s) = some (-1, s')) : Unchanged fl s s' := by
    obtain rfl := (Prod.mk.inj (Option.some.inj he)).2
    exact unchanged_self hl
  have hlost {h : Machine} (hn : ¬ SameFree fl h)
      (he : some (-1, { s with machine := h }) = some (-1, s')) : ¬ Unchanged fl s s' := by
    obtain rfl := (Prod.mk.inj (Option.some.inj he)).2
    exact fun hu => hn hu.free
  unfold createFlat at hc
  simp only at hc
  split at hc
  next hn => exact iff_of_true (hsame hc) (.inl hn)
  next hn =>
  split at hc
  next hp => exact iff_of_true (hsame hc) (.inr (.inl hp))
  next hp =>
  cases fl with
  | nil =>
    rw [hl.alloc_nil, if_pos rfl] at hc
    exact iff_of_true (hsame hc) (.inr (.inr rfl))
  | cons k fl =>
    have hk0 := (hl.pos List.mem_cons_self).ne'
    have hcons := List.cons_ne_nil k fl
    have hdirty : ¬ FlatClean s (k :: fl) size := by
      rintro (h | h | h)
      · exact hn h
      · exact hp h
      · exact hcons h
    apply iff_of_false _ hdirty
    simp only [hl.alloc_cons, if_neg hk0] at hc
    split at hc
    · apply hlost _ hc
      rintro ⟨l, hch, hperm⟩
      have hlen := hperm.length_eq
      rw [hch.unique hl.take.chain, List.length_cons] at hlen
      omega
    next hlive =>
    split at hc
    next hz => exact hlost (not_sameFree_empty (pagingCloneKernel_exhausted hz) hcons) hc
    split at hc
    · obtain ⟨h3, -, he⟩ := Option.map_eq_some_iff.mp hc
      have h2 := congrArg Prod.snd he
      rw [← show _ = s' from h2]
      exact addTask_changes (.inr rfl) hlive
    next hok =>
      apply hlost _ hc
      exact not_sameFree_empty (mapFresh_exhausted (by simpa using hok)) hcons

/-- The exits of the ELF path after the copy, told apart by the free list. -/
theorem createStaged_unchanged {h : Machine} {buf wantPid : ℕ} {pages : List ℕ}
    (hl : FreeList h fl) (hpages : ∀ f ∈ pages, (f % 4096 = 0 ∧ f < 2 ^ 64) ∧ 0 < f)
    (hnd : (pages ++ fl).Nodup) (hne : pages ≠ []) (hroot : h.pagingRoot = s.machine.pagingRoot)
    (hmagic : load h.mem buf 4 = elfMagic)
    (hc : createStaged s h buf pages wantPid = some (-1, s')) :
    Unchanged (pages ++ fl) s s' ↔
      maxTasks ≤ s.numTasks ∨ (0 < wantPid ∧ (s.findLive wantPid).isSome) ∨ fl.length ≤ 1 := by
  have hfl (f : ℕ) (hf : f ∈ fl) : (f % 4096 = 0 ∧ f < 2 ^ 64) ∧ 0 < f := ⟨hl.page f hf, hl.pos hf⟩
  have hsame : SameFree fl h := ⟨fl, hl.chain, .refl fl⟩
  have hback (h' : Machine) (ht : h'.freeStack < 2 ^ 64)
      (he : some (-1, { s with machine := pmmFreePages h' pages }) = some (-1, s'))
      (hr : h'.pagingRoot = s.machine.pagingRoot) :
      Unchanged (pages ++ fl) s s' ↔ SameFree fl h' := by
    obtain rfl := (Prod.mk.inj (Option.some.inj he)).2
    rw [unchanged_iff ((pmmFreePages_root _ _).trans hr)]
    exact sameFree_pushAll hfl hnd hpages ht
  unfold createStaged at hc
  simp only [hmagic, ne_eq, not_true_eq_false, if_false] at hc
  split at hc
  next hn => exact iff_of_true ((hback h hl.top_lt hc hroot).mpr hsame) (.inl hn)
  next hn =>
  cases fl with
  | nil =>
    rw [hl.alloc_nil, if_pos rfl] at hc
    exact iff_of_true ((hback h hl.top_lt hc hroot).mpr hsame) (.inr (.inr (Nat.zero_le 1)))
  | cons k fl =>
    have hk := hl.chain.1
    have hk0 := (hl.pos List.mem_cons_self).ne'
    have hklt := (hl.page k List.mem_cons_self).2
    simp only [hl.alloc_cons, if_neg hk0] at hc
    split at hc
    next hlive =>
      refine iff_of_true ((hback (pmmFreePage (h.take k) k) hklt hc hroot).mpr ?_)
        (.inr (.inl hlive))
      exact (sameFree_return hfl hl.nodup hk hk0).mpr hsame
    next hlive =>
    have hr := (pagingCloneKernel_root (h.take k)).trans hroot
    have hempty := pagingCloneKernel_exhausted (h := h.take k)
    have hlast (hn : fl = []) : (pagingCloneKernel (h.take k)).1 = 0 := by
      subst hn
      simp only [pagingCloneKernel, hl.take.alloc_nil, true_or, if_true]
    generalize pagingCloneKernel (h.take k) = p at hc hr hempty hlast
    simp only [hn, hlive, false_or, List.length_cons]
    split at hc
    next hclone =>
      rw [hback (pmmFreePage p.2 k) hklt hc hr, sameFree_single hfl hl.nodup (hempty hclone) hk0]
      simp
    next hclone =>
    refine iff_of_false ?_ fun hlen => hclone (hlast (List.length_eq_zero_iff.mp (by omega)))
    obtain ⟨⟨ok, h3⟩, himg, he⟩ := Option.map_eq_some_iff.mp hc
    have h2 := congrArg Prod.snd he
    rw [← show _ = s' from h2]
    cases ok with
    | false =>
      intro hu
      exact not_sameFree_empty (loadImage_exhausted himg) (by simp [hne]) hu.free
    | true => exact addTask_changes (.inl rfl) hlive

/-- A byte of the copy is what was read while only bytes before it had been written. -/
theorem stageCopy_byte {binary buf n i : ℕ} {h h' : Machine}
    (hc : stageCopy binary buf n i h = some h') {j : ℕ} (hj : j < n) :
    ∃ m, (∀ a, a < buf + i ∨ buf + i + j ≤ a → m a = h.mem a) ∧
      readUser { h with mem := m } binary (i + j) = some (h'.mem (buf + (i + j))) := by
  induction n generalizing h i j with
  | zero => cases hj
  | succ n ih =>
    obtain ⟨b, hb, hc⟩ := Option.bind_eq_some_iff.mp hc
    cases j with
    | zero =>
      refine ⟨h.mem, fun _ _ => rfl, ?_⟩
      rw [(stageCopy_spec hc).2 (buf + (i + 0)) (.inl (by omega))]
      simpa using hb
    | succ j =>
      obtain ⟨m, hout, hr⟩ := ih hc (Nat.lt_of_succ_lt_succ hj)
      refine ⟨m, fun a ha => ?_, ?_⟩
      · rw [hout a (by omega)]
        exact Function.update_of_ne (by omega) ..
      · rwa [show i + 1 + j = i + (j + 1) by omega] at hr

/-- The first word of the copy is the first word of the file. -/
theorem stageCopy_magic {binary size w : ℕ} {h h1 h2 : Machine} (hs : StagesApart h fl binary size)
    (hne : fl ≠ []) (hlo : 64 ≤ size) (hpage : fl.headD 0 % 4096 = 0)
    (hroot : h1.pagingRoot = h.pagingRoot)
    (hout : SameOutside (fl.take ((size + 4095) / 4096)) h.mem h1.mem)
    (hcopy : stageCopy binary (fl.headD 0) size 0 h1 = some h2)
    (hw : readUser32 h binary = some w) : load h2.mem (fl.headD 0) 4 = w := by
  have hbyte (i : ℕ) (hi : i < 4) : readUser h binary i = some (h2.mem (fl.headD 0 + i)) := by
    obtain ⟨m, hm, hr⟩ := stageCopy_byte hcopy (show i < size by omega)
    rw [Nat.zero_add] at hr
    rw [← hr, ← hs.magic m (fun a ha => ?_) i hi]
    · simp only [readUser, translate, hroot]
    · rw [hm a, hout a ha]
      by_contra hin
      refine ha ?_
      rw [show a / 4096 * 4096 = fl.headD 0 by omega]
      cases fl with
      | nil => exact absurd rfl hne
      | cons f fl =>
        rw [show (size + 4095) / 4096 = (size + 4095) / 4096 - 1 + 1 by omega]
        exact List.mem_cons_self
  have hread : readUser32 h binary =
      some (load (fun i => h2.mem (fl.headD 0 + i)) 0 4) := by
    simp [readUser32, readUserBytes, List.range_succ, hbyte, load]
  obtain rfl := Option.some.inj (hw.symm.trans hread)
  exact load_copy fun i _ => by rw [Nat.zero_add]

theorem createElf_unchanged {binary size wantPid : ℕ} (hl : FreeList s.machine fl)
    (hs : StagesApart s.machine fl binary size)
    (hmagic : readUser32 s.machine binary = some elfMagic)
    (hc : createElf s binary size wantPid = some (-1, s')) :
    Unchanged fl s s' ↔ ElfClean s fl size wantPid := by
  unfold createElf at hc
  unfold ElfClean
  split at hc
  next hsize =>
    obtain rfl := (Prod.mk.inj (Option.some.inj hc)).2
    exact iff_of_true (unchanged_self hl) (hsize.elim .inl (fun h => .inr (.inl h)))
  next hsize =>
  obtain ⟨hlo, hhi⟩ := not_or.mp hsize
  have hroot := stagePages_root ((size + 4095) / 4096) s.machine []
  by_cases hlen : fl.length < (size + 4095) / 4096
  · obtain ⟨h1, hst, hl1⟩ := stagePages_short [] hl hlen
    rw [hst] at hc hroot
    obtain rfl := (Prod.mk.inj (Option.some.inj hc)).2
    have hpush := hl1.pushAll (fun f hf => ⟨hl.page f hf, hl.pos hf, List.not_mem_nil⟩) hl.nodup
    rw [List.append_nil] at hpush
    apply iff_of_true _ (.inr (.inr (.inr (.inr (by omega)))))
    exact (unchanged_iff hroot).mpr ⟨fl.reverse, hpush.chain, List.reverse_perm fl⟩
  · obtain ⟨h1, hst, hl1, hout⟩ := stagePages_enough [] hl (Nat.not_lt.mp hlen)
    rw [hst] at hc hroot
    have hne : fl ≠ [] := List.ne_nil_of_length_pos (by omega)
    have hhead : (fl.take ((size + 4095) / 4096)).headD 0 = fl.headD 0 := by
      rw [List.headD_eq_head?_getD, List.headD_eq_head?_getD, List.head?_take, if_neg (by omega)]
    simp only [List.nil_append] at hc
    rw [hhead] at hc
    obtain ⟨h2, hcopy, hc⟩ := Option.bind_eq_some_iff.mp hc
    obtain ⟨he, hkeep⟩ := stageCopy_spec hcopy
    have hsplit := List.take_append_drop ((size + 4095) / 4096) fl
    have hl2 : FreeList h2 (fl.drop ((size + 4095) / 4096)) := by
      refine hl1.congr (by rw [he]) fun f hf a h1 h2 => hkeep a ?_
      have hrest := hs.rest f hf
      omega
    have hpage : fl.headD 0 % 4096 = 0 := by
      cases fl with
      | nil => exact absurd rfl hne
      | cons f fl => exact (hl.page f List.mem_cons_self).1
    have hstaged := createStaged_unchanged hl2
      (fun f hf => ⟨hl.page f (List.mem_of_mem_take hf), hl.pos (List.mem_of_mem_take hf)⟩)
      (by rw [hsplit]; exact hl.nodup)
      (List.ne_nil_of_length_pos (by rw [List.length_take]; omega))
      ((stageCopy_root hcopy).trans hroot)
      (stageCopy_magic hs hne (Nat.not_lt.mp hlo) hpage hroot hout hcopy hmagic) hc
    rw [hsplit, List.length_drop] at hstaged
    rw [hstaged]
    simp only [hlo, hhi, false_or]
    rw [Nat.sub_le_iff_le_add, Nat.add_comm 1]

/-- A failed `task_create` or `sys_spawn_at` whose staging does no harm leaves free frames, task
table and root as they were exactly at its clean exits. -/
theorem failed_creation_unchanged_iff {s : Kernel} {fl : List ℕ} (hl : FreeList s.machine fl) :
    (∀ binary size loadAddr wantPid s',
      (readUser32 s.machine binary = some elfMagic → StagesApart s.machine fl binary size) →
      taskCreate s binary size loadAddr wantPid = some (-1, s') →
      (Unchanged fl s s' ↔ CreationClean s fl binary size wantPid)) ∧
    (∀ addr size s',
      (readUser32 s.machine addr = some elfMagic → StagesApart s.machine fl addr size) →
      sysSpawnAt s addr size = some (-1, s') →
      (Unchanged fl s s' ↔ SpawnClean s fl addr size)) := by
  constructor
  · intro binary size loadAddr wantPid s' hs hc
    unfold taskCreate at hc
    unfold CreationClean
    split at hc
    next hsize =>
      obtain ⟨magic, hmagic, hc⟩ := Option.bind_eq_some_iff.mp hc
      split at hc
      next he =>
        rw [he] at hmagic
        rw [if_pos ⟨hsize, hmagic⟩]
        exact createElf_unchanged hl (hs hmagic) hmagic hc
      next he =>
        rw [if_neg (by rw [hmagic]; simp [he])]
        exact createFlat_unchanged hl hc
    next hsize =>
      rw [if_neg fun h => hsize h.1]
      exact createFlat_unchanged hl hc
  · intro addr size s' hs hc
    have hsame (he : some (-1, s) = some (-1, s')) : Unchanged fl s s' := by
      obtain rfl := (Prod.mk.inj (Option.some.inj he)).2
      exact unchanged_self hl
    unfold sysSpawnAt at hc
    unfold SpawnClean
    split at hc
    next hz => exact iff_of_true (hsame hc) (hz.imp_right fun h => .inl (by omega))
    next hz =>
    split at hc
    next hsize =>
      obtain ⟨magic, hmagic, hc⟩ := Option.bind_eq_some_iff.mp hc
      split at hc
      next he =>
        rw [he] at hmagic
        rw [createElf_unchanged hl (hs hmagic) hmagic hc]
        simp [hmagic, not_or.mp hz, Nat.not_lt.mpr hsize]
      next he => exact iff_of_true (hsame hc) (.inr (.inr (.inl (by rw [hmagic]; simp [he]))))
    next hsize => exact iff_of_true (hsame hc) (.inr (.inl (Nat.not_le.mp hsize)))

end Exits

/-- A kernel without tasks, and one free page. -/
private def lastPage : Kernel := initialKernel ⟨fun _ => 0, 0x200000, 0x1000⟩

private theorem lastPage_free : FreeList lastPage.machine [0x200000] :=
  ⟨⟨rfl, by decide, rfl⟩, by decide, by decide⟩

/-- The page becomes a kernel stack, the tables cannot be cloned, and the stack is kept. -/
private theorem lastPage_create :
    taskCreate lastPage 0x300000 1 0x400000 1 =
      some (-1, { lastPage with machine := lastPage.machine.take 0x200000 }) := by
  have hnone : lastPage.findLive 1 = none := rfl
  have hn : ¬ maxTasks ≤ lastPage.numTasks := by decide
  have hempty : FreeList (lastPage.machine.take 0x200000) [] := lastPage_free.take
  have hclone : pagingCloneKernel (lastPage.machine.take 0x200000) =
      (0, lastPage.machine.take 0x200000) := by
    simp only [pagingCloneKernel, hempty.alloc_nil, true_or, if_true]
  simp only [taskCreate, createFlat, hn, lastPage_free.alloc_cons, hnone, hclone]
  rfl

theorem failed_creation_unchanged_iff_sample : ∃ s s' fl, FreeList s.machine fl ∧
    taskCreate s 0x300000 1 0x400000 1 = some (-1, s') ∧
    (Unchanged fl s s' ↔ CreationClean s fl 0x300000 1 1) ∧
    (Unchanged fl s s ↔ SpawnClean s fl 0 4096) := by
  obtain ⟨hcreate, hspawn⟩ := failed_creation_unchanged_iff lastPage_free
  have hread : readUser32 lastPage.machine 0x300000 = none := by decide
  exact ⟨lastPage, _, [0x200000], lastPage_free, lastPage_create,
    hcreate _ _ _ _ _ (fun h => by cases hread.symm.trans h) lastPage_create,
    hspawn 0 4096 lastPage (fun h => by cases (show none = some elfMagic from h)) rfl⟩

/-- A flat creation that fails on its tables loses the page of the kernel stack. -/
theorem failed_create_keeps_stack : ∃ s s' fl, FreeList s.machine fl ∧
    taskCreate s 0x300000 1 0x400000 1 = some (-1, s') ∧ ¬ Unchanged fl s s' := by
  refine ⟨lastPage, _, [0x200000], lastPage_free, lastPage_create, fun hu => ?_⟩
  have hempty : (lastPage.machine.take 0x200000).freeStack = 0 :=
    lastPage_free.take.eq_nil_iff.mp rfl
  exact not_sameFree_empty hempty (List.cons_ne_nil _ _) hu.free

end Mukrn
