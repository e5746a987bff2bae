import Mukrn.Fat32.Orphans

/-! Deleting a file is meant to remove that file from its directory and to give back its clusters,
and to leave everything else alone. -/
namespace Mukrn.Fat32
open ByteMemory

/-- A file in the directory at `c`: the directory has the chain `l` and no name twice, and the file
is the entry at `p` with the chain `lp`, which shares no cluster with the directory. -/
structure Layout.HasFile (L : Layout) (V : Volume) (c : ℕ) (name : List UInt8) (l lp : List ℕ)
    (p : Slot) : Prop where
  chain : L.Chain V c l
  unique : V.Unique (V.active (L.slots l))
  found : V.find name (L.slots l) = some p
  isFile : (V.entry p).isDir = false
  fileChain : L.Chain V (V.entry p).cluster lp
  apart : ∀ a ∈ lp, a ∉ l

section Names

variable {V : Volume} {ps : List Slot} {p : Slot} {name m : List UInt8}

/-- Different names lead to different slots. -/
theorem find_ne {q : Slot} (hp : V.find name ps = some p) (hq : V.find m ps = some q)
    (hm : m ≠ name) : q ≠ p := by
  rintro rfl
  have hname := (Layout.Sound.live_of_named (Volume.find_spec hp).2).2
  have hname' := (Layout.Sound.live_of_named (Volume.find_spec hq).2).2
  exact hm (hname'.symm.trans hname)

theorem active_deleted (hp : V.find name ps = some p) (lp : List ℕ) :
    ((V.deleted p).free lp).active ps = V.active ps :=
  Volume.active_congr fun q _ => isEnd_deleted hp lp q

/-- The name is gone. -/
theorem find_deleted_self (hu : V.Unique (V.active ps)) (hp : V.find name ps = some p)
    (lp : List ℕ) : ((V.deleted p).free lp).find name ps = none := by
  obtain ⟨hact, hnamed⟩ := Volume.find_spec hp
  obtain ⟨hlive, hname⟩ := Layout.Sound.live_of_named hnamed
  rw [Volume.find, active_deleted hp, List.find?_eq_none]
  intro q hq hnamed'
  obtain ⟨hlive', hname'⟩ := Layout.Sound.live_of_named hnamed'
  by_cases hqp : q = p
  · rw [hqp, (deleted_not_owner V p lp).1] at hlive'
    cases hlive'
  · have hentry : ((V.deleted p).free lp).entry q = V.entry q := entry_deleted_of_ne V hqp
    rw [hentry] at hlive' hname'
    exact hqp (hu q hq p hact hlive' hlive (hname'.trans hname.symm))

/-- Every other name leads where it led before. -/
theorem find_deleted_of_ne (hp : V.find name ps = some p) (hm : m ≠ name) (lp : List ℕ) :
    ((V.deleted p).free lp).find m ps = V.find m ps := by
  rw [Volume.find, Volume.find, active_deleted hp]
  apply List.find?_congr
  intro q _
  by_cases hqp : q = p
  · have hname := (Layout.Sound.live_of_named (Volume.find_spec hp).2).2
    rw [hqp, Entry.isNamed, Entry.isNamed, (deleted_not_owner V p lp).1, hname,
      beq_eq_false_iff_ne.mpr hm.symm, Bool.false_and, Bool.and_false]
  · exact congrArg (Entry.isNamed · m) (entry_deleted_of_ne V hqp)

end Names

section Delete

variable {δ : Type} (D : ReliableDisk δ) {L : Layout} {d : δ} {c : ℕ} {l lp : List ℕ} {p : Slot}
  {name : List UInt8}

/-- Deleting a file of a directory succeeds. Its name is gone, every other name leads to the same
cluster and size as before, its clusters are free, and no other entry of the tables has changed. -/
theorem deleteEntry_removes (hn : name.length = 11)
    (hf : L.HasFile (L.view (D.sectors d)) c name l lp p) :
    ∃ d', deleteEntry D.toDevice L.toGeometry d c name = some (true, d') ∧
      findInDir D.toDevice L.toGeometry d' c name = some none ∧
      (∀ m, m.length = 11 → m ≠ name →
        findInDir D.toDevice L.toGeometry d' c m = findInDir D.toDevice L.toGeometry d c m) ∧
      (∀ a ∈ lp, nextCluster D.toDevice L.toGeometry d' a = 0) ∧
      L.TablesKept (D.sectors d) (D.sectors d') lp := by
  obtain ⟨V, hV⟩ : ∃ V, V = L.view (D.sectors d) := ⟨_, rfl⟩
  have h : L.Holds (D.sectors d) (D.sectors d) V := hV ▸ .refl _
  rw [← hV] at hf
  obtain ⟨d', hdel, hd'⟩ := deleteEntry_holds D h hf.chain hn hf.found hf.fileChain
  rw [Entry.released, hf.isFile, if_neg Bool.false_ne_true] at hd'
  have hfat (a : ℕ) (ha : a ∉ lp) : ((V.deleted p).free lp).fat a = V.fat a := by
    rw [Volume.free_fat, if_neg ha]
    rfl
  -- The chain of the directory is not touched, so that the next walk goes over the same slots.
  have hl : L.Chain ((V.deleted p).free lp) c l :=
    hf.chain.congr fun a ha => hfat a fun hlp => hf.apart a hlp ha
  refine ⟨d', hdel, ?_, ?_, ?_, h.tablesKept hd' hfat⟩
  · rw [findInDir_eq D hd' hl hn, find_deleted_self hf.unique hf.found]
    rfl
  · intro m hm hne
    rw [findInDir_eq D hd' hl hm, findInDir_eq D h hf.chain hm, find_deleted_of_ne hf.found hne]
    apply congrArg some
    cases hq : V.find m (L.slots l) with
    | none => rw [Option.map_none, Option.map_none]
    | some q =>
      have hentry : ((V.deleted p).free lp).entry q = V.entry q :=
        entry_deleted_of_ne V (find_ne hf.found hq hne)
      rw [Option.map_some, Option.map_some, hentry]
  · intro a ha
    rw [nextCluster_eq D hd' (hf.fileChain.used a ha).1, Volume.free_fat, if_pos ha]

end Delete

section Sample

/-- The files A with two clusters and B with one. -/
def twoFilesDisk (lba : ℕ) : Sector :=
  if lba = 1 ∨ lba = 2 then
    store (store (store (store (fun _ => 0) 8 4 eoc) 12 4 4) 16 4 eoc) 20 4 eoc
  else if lba = 3 then store (store (filesSector 2) 26 2 3) 58 2 5
  else fun _ => 0

/-- The disk evaluated: the root directory, its two entries, and the table. -/
private theorem twoFilesDisk_eval :
    ((sampleLayout.view twoFilesDisk).active (sampleLayout.slots [2]) = [⟨2, 0, 0⟩, ⟨2, 0, 1⟩] ∧
      (sampleLayout.view twoFilesDisk).entry ⟨2, 0, 0⟩ = ⟨to83 [65], 0x20, 3, 0⟩ ∧
      (sampleLayout.view twoFilesDisk).entry ⟨2, 0, 1⟩ = ⟨to83 [66], 0x20, 5, 0⟩ ∧
      (sampleLayout.view twoFilesDisk).find (to83 [65]) (sampleLayout.slots [2]) = some ⟨2, 0, 0⟩ ∧
      (sampleLayout.view twoFilesDisk).find (to83 [66]) (sampleLayout.slots [2]) = some ⟨2, 0, 1⟩) ∧
    to83 [66] ≠ to83 [65] ∧
    (sampleLayout.view twoFilesDisk).fat 2 = eoc ∧ (sampleLayout.view twoFilesDisk).fat 3 = 4 ∧
    (sampleLayout.view twoFilesDisk).fat 4 = eoc ∧ sampleLayout.word twoFilesDisk 5 = eoc := by
  decide +kernel

private theorem twoFilesDisk_hasFile : sampleLayout.HasFile (sampleLayout.view twoFilesDisk) 2
    (to83 [65]) [2] [3, 4] ⟨2, 0, 0⟩ := by
  obtain ⟨⟨hactive, hA, hB, hfind, -⟩, hne, h2, h3, h4, -⟩ := twoFilesDisk_eval
  constructor
  · exact Layout.Chain.single (by decide) h2.ge
  · rw [hactive]
    intro p hp q hq _ _ hname
    simp only [List.mem_cons, List.not_mem_nil, or_false] at hp hq
    rcases hp with rfl | rfl <;> rcases hq with rfl | rfl
    · rfl
    · rw [hA, hB] at hname
      exact absurd hname.symm hne
    · rw [hA, hB] at hname
      exact absurd hname hne
    · rfl
  · exact hfind
  · rw [hA]
    rfl
  · rw [hA, Layout.Chain.cons_iff, h3]
    exact ⟨rfl, by decide, by decide, Layout.Chain.single (by decide) h4.ge⟩
  · decide

/-- A is deleted and B is still there. -/
theorem deleteEntry_removes_sample : ∃ S',
    deleteEntry arrayDisk.toDevice sampleLayout.toGeometry twoFilesDisk 2 (to83 [65]) =
      some (true, S') ∧
    findInDir arrayDisk.toDevice sampleLayout.toGeometry S' 2 (to83 [65]) = some none ∧
    findInDir arrayDisk.toDevice sampleLayout.toGeometry S' 2 (to83 [66]) = some (some (5, 0)) ∧
    nextCluster arrayDisk.toDevice sampleLayout.toGeometry S' 3 = 0 ∧
    nextCluster arrayDisk.toDevice sampleLayout.toGeometry S' 4 = 0 ∧
    sampleLayout.word S' 5 = eoc := by
  obtain ⟨⟨-, -, hB, -, hfind⟩, hne, -, -, -, h5⟩ := twoFilesDisk_eval
  obtain ⟨S', hdel, hgone, hothers, hfree, hkept⟩ := deleteEntry_removes arrayDisk
    (d := twoFilesDisk) (to83_length _) twoFilesDisk_hasFile
  have hlen : (to83 [66]).length = 11 := to83_length _
  have hfound := findInDir_eq arrayDisk (d := twoFilesDisk) (.refl twoFilesDisk)
    twoFilesDisk_hasFile.chain hlen
  rw [hfind, Option.map_some, hB] at hfound
  refine ⟨S', hdel, hgone, ?_, hfree 3 (by decide), hfree 4 (by decide), ?_⟩
  · exact (hothers _ hlen hne).trans hfound
  · exact (hkept.word 5 (by decide) (by decide)).trans h5

end Sample

end Mukrn.Fat32
