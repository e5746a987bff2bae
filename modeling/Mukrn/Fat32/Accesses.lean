import Mukrn.Fat32.FatArray

/-! The divisions and buffer accesses of the table functions and of the loops over file data. The
buffers have a fixed size, and the divisors, remainders and copy lengths come from the boot sector,
of which `init_fs` accepts every content. -/
namespace Mukrn.Fat32
open ByteMemory

/-- A division or remainder, a byte of a sector buffer, or a byte of the file buffer. -/
inductive Access where
  | divide (divisor : ℕ)
  | sector (index : ℕ)
  | fileBuf (index : ℕ)
  deriving DecidableEq

/-- Sector buffers have 512 bytes and the file buffer 32768. -/
def Access.Allowed : Access → Prop
  | .divide divisor => divisor ≠ 0
  | .sector index => index < 512
  | .fileBuf index => index < 32768

section Accesses

variable {δ : Type} (dev : Device δ) (g : Geometry)

/-- The accesses of `next_cluster`, and of `set_fat_entry`. -/
def fatAccesses (d : δ) (c : ℕ) : List Access :=
  .divide g.bytesPerSector ::
    match dev.read d (g.fatSector c) with
    | none => []
    | some _ => (List.range 4).map fun i => .sector (g.fatOffset c + i)

/-- Those of `alloc_cluster` for the entries in the list. -/
def allocAccesses (d : δ) : List ℕ → List Access
  | [] => []
  | c :: cs => fatAccesses dev g d c ++
    if nextCluster dev g d c = 0 then fatAccesses dev g d c else allocAccesses d cs

def extendAccesses (d : δ) (c prev : ℕ) : List Access :=
  if isLink c then []
  else allocAccesses dev g d (List.range' 2 (g.totalEntries - 2)) ++
    match allocCluster dev g d with
    | (0, _) => []
    | (_, d) => if prev = 0 then [] else fatAccesses dev g d prev

def writeSectorsAccesses (data : ℕ → UInt8) (off toWrite : ℕ) : List ℕ → δ → ℕ → List Access
  | [], _, _ => []
  | lba :: rest, d, done =>
    if done < toWrite then
      let chunk := min (toWrite - done) g.bytesPerSector
      (List.range g.bytesPerSector).map .sector ++
        match dev.write d lba (dataSector data (off + done) chunk) with
        | (false, _) => []
        | (true, d) => writeSectorsAccesses data off toWrite rest d (done + chunk)
    else []

/-- The accesses of at most `n` turns of the loop of `write_file_data`. -/
def writeDataAccesses (data : ℕ → UInt8) (size : ℕ) : ℕ → δ → ℕ → ℕ → ℕ → List Access
  | 0, _, _, _, _ => []
  | n + 1, d, c, off, prev =>
    if off < size then
      extendAccesses dev g d c prev ++
        match extendChain dev g d c prev with
        | (none, _) => []
        | (some c, d) =>
          let toWrite := min (size - off) (g.bytesPerSector * g.sectorsPerCluster)
          let lbas := (List.range g.sectorsPerCluster).map (g.sectorAt c)
          writeSectorsAccesses dev g data off toWrite lbas d 0 ++
            match writeSectors dev g data off toWrite lbas d 0 with
            | (_, false, _) => []
            | (done, true, d) => fatAccesses dev g d c ++
              writeDataAccesses data size n d (nextCluster dev g d c) (off + done) c
    else []

def chunkAccesses (bytesPerSector stop : ℕ) : ℕ → ℕ → List Access
  | 0, _ => []
  | n + 1, off =>
    if off < stop then
      let chunk := min (stop - off) 59
      .divide bytesPerSector ::
        (List.range chunk).map (fun j => .sector (off % bytesPerSector + j)) ++
        chunkAccesses bytesPerSector stop n (off + chunk)
    else []

def sendSectorsAccesses (d : δ) (size : ℕ) : List ℕ → ℕ → List Access
  | [], _ => []
  | lba :: rest, off =>
    if off < size then
      match dev.read d lba with
      | none => []
      | some _ =>
        let stop := min ((off + g.bytesPerSector) % 2 ^ 32) size
        chunkAccesses g.bytesPerSector stop (stop - off) off ++
          sendSectorsAccesses d size rest (max off stop)
    else []

/-- The accesses of at most `n` turns of the loop for requests of type 0. -/
def sendAccesses (d : δ) (size : ℕ) : ℕ → ℕ → ℕ → List Access
  | 0, _, _ => []
  | n + 1, c, off =>
    if isLink c ∧ off < size then
      let lbas := (List.range g.sectorsPerCluster).map (g.sectorAt c)
      sendSectorsAccesses dev g d size lbas off ++
        match sendSectors dev g d size lbas off with
        | (_, _, false) => []
        | (_, off, true) =>
          fatAccesses dev g d c ++ sendAccesses d size n (nextCluster dev g d c) off
    else []

/-- A sector is read straight into the file buffer. -/
def loadSectorsAccesses (d : δ) (size : ℕ) : List ℕ → ℕ → List Access
  | [], _ => []
  | lba :: rest, off =>
    if off < size then
      match dev.read d lba with
      | none => []
      | some _ => (List.range 512).map (fun j => .fileBuf (off + j)) ++
        loadSectorsAccesses d size rest (off + g.bytesPerSector)
    else []

/-- The accesses of at most `n` turns of the loop for requests of type 1. -/
def loadAccesses (d : δ) (size : ℕ) : ℕ → ℕ → Mem → ℕ → List Access
  | 0, _, _, _ => []
  | n + 1, c, buf, off =>
    if isLink c ∧ off < size then
      let lbas := (List.range g.sectorsPerCluster).map (g.sectorAt c)
      loadSectorsAccesses dev g d size lbas off ++
        match loadSectors dev g d size lbas buf off with
        | (_, _, false) => []
        | (buf, off, true) => fatAccesses dev g d c ++
          loadAccesses d size n (nextCluster dev g d c) buf off
    else []

/-- Larger files are refused before the loop. -/
def execAccesses (d : δ) (size n c : ℕ) (buf : Mem) : List Access :=
  if 32768 < size then [] else loadAccesses dev g d size n c buf 0

/-- Everything that happens on this disk for a cluster number and a file size is allowed. -/
structure Device.Safe (d : δ) : Prop where
  table : ∀ c < 2 ^ 28, ∀ a ∈ fatAccesses dev g d c, a.Allowed
  write : ∀ c < 2 ^ 28, ∀ data size n, ∀ a ∈ writeDataAccesses dev g data size n d c 0 0, a.Allowed
  send : ∀ c < 2 ^ 28, ∀ size n, ∀ a ∈ sendAccesses dev g d size n c 0, a.Allowed
  load : ∀ c < 2 ^ 28, ∀ size n buf, ∀ a ∈ execAccesses dev g d size n c buf, a.Allowed

end Accesses

section Sufficient

variable {δ : Type} {dev : Device δ} {g : Geometry} {d : δ} {c size off n : ℕ}

/-- The words of a table entry stay in the sector buffer. -/
def Geometry.Steady (g : Geometry) : Prop :=
  0 < g.bytesPerSector ∧ (g.bytesPerSector ≤ 510 ∨ g.bytesPerSector = 512)

theorem Geometry.Steady.offset_lt (hg : g.Steady) (c : ℕ) : g.fatOffset c + 3 < 512 := by
  obtain ⟨hpos, hle⟩ := hg
  have hlt := Nat.mod_lt (c * 4 % 2 ^ 32) hpos
  unfold fatOffset
  by_cases h510 : g.bytesPerSector = 510
  · -- an even remainder of 510
    rw [h510]
    omega
  by_cases h512 : g.bytesPerSector = 512
  · rw [h512]
    omega
  · omega

theorem fatAccesses_allowed (hg : g.Steady) (d : δ) (c : ℕ) :
    ∀ a ∈ fatAccesses dev g d c, a.Allowed := by
  intro a ha
  rcases List.mem_cons.mp ha with rfl | ha
  · exact hg.1.ne'
  · split at ha
    · cases ha
    · obtain ⟨i, hi, rfl⟩ := List.mem_map.mp ha
      have hlt := hg.offset_lt c
      have hi := List.mem_range.mp hi
      change g.fatOffset c + i < 512
      omega

theorem allocAccesses_allowed (hg : g.Steady) (d : δ) (cs : List ℕ) :
    ∀ a ∈ allocAccesses dev g d cs, a.Allowed := by
  induction cs with
  | nil => exact fun a ha => by cases ha
  | cons c cs ih =>
    intro a ha
    rcases List.mem_append.mp ha with ha | ha
    · exact fatAccesses_allowed hg d c a ha
    · split at ha
      · exact fatAccesses_allowed hg d c a ha
      · exact ih a ha

theorem extendAccesses_allowed (hg : g.Steady) (d : δ) (c prev : ℕ) :
    ∀ a ∈ extendAccesses dev g d c prev, a.Allowed := by
  intro a ha
  unfold extendAccesses at ha
  split at ha
  · cases ha
  · rcases List.mem_append.mp ha with ha | ha
    · exact allocAccesses_allowed hg d _ a ha
    · split at ha
      · cases ha
      · split at ha
        · cases ha
        · exact fatAccesses_allowed hg _ prev a ha

theorem writeSectorsAccesses_allowed (hg : g.Steady) (data : ℕ → UInt8) (off toWrite : ℕ)
    (lbas : List ℕ) (d : δ) (done : ℕ) :
    ∀ a ∈ writeSectorsAccesses dev g data off toWrite lbas d done, a.Allowed := by
  induction lbas generalizing d done with
  | nil => exact fun a ha => by cases ha
  | cons lba lbas ih =>
    intro a ha
    unfold writeSectorsAccesses at ha
    split at ha
    · rcases List.mem_append.mp ha with ha | ha
      · obtain ⟨i, hi, rfl⟩ := List.mem_map.mp ha
        have hi := List.mem_range.mp hi
        have hle := hg.2
        change i < 512
        omega
      · split at ha
        · cases ha
        · exact ih _ _ a ha
    · cases ha

theorem writeDataAccesses_allowed (hg : g.Steady) (data : ℕ → UInt8) (size n : ℕ) (d : δ)
    (c off prev : ℕ) : ∀ a ∈ writeDataAccesses dev g data size n d c off prev, a.Allowed := by
  induction n generalizing d c off prev with
  | zero => exact fun a ha => by cases ha
  | succ n ih =>
    intro a ha
    unfold writeDataAccesses at ha
    split at ha
    · rcases List.mem_append.mp ha with ha | ha
      · exact extendAccesses_allowed hg d c prev a ha
      · split at ha
        · cases ha
        · rcases List.mem_append.mp ha with ha | ha
          · exact writeSectorsAccesses_allowed hg data _ _ _ _ _ a ha
          · split at ha
            · cases ha
            · rcases List.mem_append.mp ha with ha | ha
              · exact fatAccesses_allowed hg _ _ a ha
              · exact ih _ _ _ _ a ha
    · cases ha

/-- A chunk ends with the sector it is taken from. -/
theorem chunkAccesses_allowed (hg : g.Steady) {base stop : ℕ} (hbase : base % g.bytesPerSector = 0)
    (hstop : stop ≤ base + g.bytesPerSector) (n : ℕ) (hoff : base ≤ off) :
    ∀ a ∈ chunkAccesses g.bytesPerSector stop n off, a.Allowed := by
  induction n generalizing off with
  | zero => exact fun a ha => by cases ha
  | succ n ih =>
    intro a ha
    unfold chunkAccesses at ha
    split at ha
    next hlt =>
      have hmod : off % g.bytesPerSector = off - base := by
        obtain ⟨k, hk⟩ := Nat.dvd_of_mod_eq_zero hbase
        obtain ⟨r, rfl⟩ : ∃ r, off = g.bytesPerSector * k + r := ⟨off - base, by omega⟩
        rw [Nat.mul_add_mod, Nat.mod_eq_of_lt (by omega)]
        omega
      rcases List.mem_append.mp ha with ha | ha
      · rcases List.mem_cons.mp ha with rfl | ha
        · exact hg.1.ne'
        · obtain ⟨j, hj, rfl⟩ := List.mem_map.mp ha
          have hj := List.mem_range.mp hj
          have hle := hg.2
          change off % g.bytesPerSector + j < 512
          omega
      · exact ih (by omega) a ha
    · cases ha

/-- The end of a sector starts the next one, unless the file ends there or the sum wraps. -/
theorem sector_end (hg : g.Steady) (hoff : off % g.bytesPerSector = 0) :
    max off (min ((off + g.bytesPerSector) % 2 ^ 32) size) % g.bytesPerSector = 0 ∨
      size ≤ max off (min ((off + g.bytesPerSector) % 2 ^ 32) size) := by
  obtain ⟨hpos, hle⟩ := hg
  by_cases hend : size ≤ max off (min ((off + g.bytesPerSector) % 2 ^ 32) size)
  · exact .inr hend
  · have hnext : max off (min ((off + g.bytesPerSector) % 2 ^ 32) size) = off ∨
        max off (min ((off + g.bytesPerSector) % 2 ^ 32) size) = off + g.bytesPerSector := by
      omega
    left
    rcases hnext with h | h
    · rw [h, hoff]
    · rw [h, Nat.add_mod_right, hoff]

/-- The offset is at the start of a sector or the loop is over. -/
theorem sendSectors_aligned (hg : g.Steady) (dev : Device δ) (d : δ) (size : ℕ) (lbas : List ℕ)
    (hoff : off % g.bytesPerSector = 0 ∨ size ≤ off) :
    (sendSectors dev g d size lbas off).2.1 % g.bytesPerSector = 0 ∨
      size ≤ (sendSectors dev g d size lbas off).2.1 := by
  induction lbas generalizing off with
  | nil => exact hoff
  | cons lba lbas ih =>
    rw [sendSectors]
    split
    next hlt =>
      split
      · exact hoff
      · exact ih (sector_end hg (hoff.resolve_right (by omega)))
    · exact hoff

theorem sendSectorsAccesses_allowed (hg : g.Steady) (d : δ) (lbas : List ℕ)
    (hoff : off % g.bytesPerSector = 0 ∨ size ≤ off) :
    ∀ a ∈ sendSectorsAccesses dev g d size lbas off, a.Allowed := by
  induction lbas generalizing off with
  | nil => exact fun a ha => by cases ha
  | cons lba lbas ih =>
    intro a ha
    unfold sendSectorsAccesses at ha
    split at ha
    next hlt =>
      have hbase := hoff.resolve_right (by omega)
      split at ha
      · cases ha
      · rcases List.mem_append.mp ha with ha | ha
        · have hle := Nat.mod_le (off + g.bytesPerSector) (2 ^ 32)
          exact chunkAccesses_allowed hg hbase (by omega) _ (Nat.le_refl off) a ha
        · exact ih (sector_end hg hbase) a ha
    · cases ha

theorem sendAccesses_allowed (hg : g.Steady) (d : δ) (size n c : ℕ)
    (hoff : off % g.bytesPerSector = 0 ∨ size ≤ off) :
    ∀ a ∈ sendAccesses dev g d size n c off, a.Allowed := by
  induction n generalizing c off with
  | zero => exact fun a ha => by cases ha
  | succ n ih =>
    intro a ha
    unfold sendAccesses at ha
    split at ha
    · rcases List.mem_append.mp ha with ha | ha
      · exact sendSectorsAccesses_allowed hg d _ hoff a ha
      · split at ha
        · cases ha
        next msgs off' hres =>
          have hoff' := sendSectors_aligned hg dev d size
            ((List.range g.sectorsPerCluster).map (g.sectorAt c)) hoff
          rw [hres] at hoff'
          rcases List.mem_append.mp ha with ha | ha
          · exact fatAccesses_allowed hg d c a ha
          · exact ih _ hoff' a ha
    · cases ha

/-- Sectors of 512 bytes fill the file buffer up to its end. -/
theorem loadSectorsAccesses_allowed (h512 : g.bytesPerSector = 512) (hsize : size ≤ 32768)
    (dev : Device δ) (d : δ) (lbas : List ℕ) (hoff : off % 512 = 0) :
    (∀ a ∈ loadSectorsAccesses dev g d size lbas off, a.Allowed) ∧
      ∀ buf, (loadSectors dev g d size lbas buf off).2.1 % 512 = 0 := by
  induction lbas generalizing off with
  | nil => exact ⟨fun a ha => (by cases ha), fun _ => hoff⟩
  | cons lba lbas ih =>
    have hnext : (off + g.bytesPerSector) % 512 = 0 := by omega
    obtain ⟨hallowed, hmod⟩ := ih hnext
    constructor
    · intro a ha
      unfold loadSectorsAccesses at ha
      split at ha
      next hlt =>
        split at ha
        · cases ha
        · rcases List.mem_append.mp ha with ha | ha
          · obtain ⟨j, hj, rfl⟩ := List.mem_map.mp ha
            have hj := List.mem_range.mp hj
            change off + j < 32768
            omega
          · exact hallowed a ha
      · cases ha
    · intro buf
      rw [loadSectors]
      split
      · split
        · exact hoff
        · exact hmod _
      · exact hoff

theorem loadAccesses_allowed (h512 : g.bytesPerSector = 512) (hsize : size ≤ 32768) (d : δ)
    (n c : ℕ) (buf : Mem) (hoff : off % 512 = 0) :
    ∀ a ∈ loadAccesses dev g d size n c buf off, a.Allowed := by
  have hg : g.Steady := ⟨by omega, .inr h512⟩
  induction n generalizing c buf off with
  | zero => exact fun a ha => by cases ha
  | succ n ih =>
    intro a ha
    obtain ⟨hallowed, hmod⟩ := loadSectorsAccesses_allowed h512 hsize dev d
      ((List.range g.sectorsPerCluster).map (g.sectorAt c)) hoff
    unfold loadAccesses at ha
    split at ha
    · rcases List.mem_append.mp ha with ha | ha
      · exact hallowed a ha
      · split at ha
        · cases ha
        next buf' off' hres =>
          have hoff' := hmod buf
          rw [hres] at hoff'
          rcases List.mem_append.mp ha with ha | ha
          · exact fatAccesses_allowed hg d c a ha
          · exact ih _ _ hoff' a ha
    · cases ha

/-- Without sectors in a cluster nothing is read. -/
theorem loadAccesses_empty (hg : g.Steady) (h0 : g.sectorsPerCluster = 0) (d : δ) (n c : ℕ)
    (buf : Mem) : ∀ a ∈ loadAccesses dev g d size n c buf off, a.Allowed := by
  induction n generalizing c buf off with
  | zero => exact fun a ha => by cases ha
  | succ n ih =>
    intro a ha
    unfold loadAccesses at ha
    simp only [h0, List.range_zero, List.map_nil, loadSectorsAccesses, loadSectors,
      List.nil_append] at ha
    split at ha
    · rcases List.mem_append.mp ha with ha | ha
      · exact fatAccesses_allowed hg d c a ha
      · exact ih _ _ a ha
    · cases ha

/-- With sectors of 512 bytes everything is allowed, and with smaller ones where a cluster has no
sectors. -/
theorem Device.safe_of_geometry (dev : Device δ) (d : δ) (h : g.bytesPerSector = 512 ∨
    g.sectorsPerCluster = 0 ∧ 0 < g.bytesPerSector ∧ g.bytesPerSector ≤ 510) : dev.Safe g d := by
  have hg : g.Steady := by
    unfold Geometry.Steady
    omega
  refine ⟨fun c _ => fatAccesses_allowed hg d c, fun c _ data size n =>
    writeDataAccesses_allowed hg data size n d c 0 0, fun c _ size n =>
    sendAccesses_allowed hg d size n c (.inl (Nat.zero_mod _)), fun c _ size n buf a ha => ?_⟩
  unfold execAccesses at ha
  split at ha
  · cases ha
  next hsize =>
    rcases h with h512 | ⟨h0, -⟩
    · exact loadAccesses_allowed h512 (Nat.not_lt.mp hsize) d n c buf (Nat.zero_mod _) a ha
    · exact loadAccesses_empty hg h0 d n c buf a ha

end Sufficient

section Necessary

variable {δ : Type} (D : ReliableDisk δ) {g : Geometry} {d : δ} {c size off n : ℕ}

/-- The sectors of a cluster are read up to the end of the file, or all of them. -/
theorem loadSectorsAccesses_reaches {lbas : List ℕ} (hlbas : ∀ lba ∈ lbas, lba < 2 ^ 32)
    (hoff : off < size) (buf : Mem) :
    (∃ o, size ≤ o + g.bytesPerSector ∧
      ∀ j < 512, .fileBuf (o + j) ∈ loadSectorsAccesses D.toDevice g d size lbas off) ∨
    off + lbas.length * g.bytesPerSector < size ∧
      ∃ buf', loadSectors D.toDevice g d size lbas buf off =
        (buf', off + lbas.length * g.bytesPerSector, true) := by
  induction lbas generalizing off buf with
  | nil => exact .inr ⟨by simpa using hoff, buf, by simp [loadSectors]⟩
  | cons lba lbas ih =>
    have hread := D.read_eq d lba (hlbas lba (by simp))
    rw [loadSectorsAccesses, loadSectors, if_pos hoff, if_pos hoff, hread]
    by_cases hend : size ≤ off + g.bytesPerSector
    · exact .inl ⟨off, hend, fun j hj => by simp [hj]⟩
    · rcases ih (fun lba' h => hlbas lba' (by simp [h])) (Nat.not_le.mp hend)
        (fill buf off 512 (D.sectors d lba)) with ⟨o, ho, hmem⟩ | ⟨hlt, buf', hres⟩
      · exact .inl ⟨o, ho, fun j hj => List.mem_append_right _ (hmem j hj)⟩
      · have hlen : off + g.bytesPerSector + lbas.length * g.bytesPerSector =
            off + (lba :: lbas).length * g.bytesPerSector := by
          rw [List.length_cons, Nat.add_mul, Nat.one_mul]
          omega
        rw [hlen] at hlt hres
        exact .inr ⟨hlt, buf', hres⟩

/-- On a chain without end a file is loaded up to its last sector. -/
theorem loadAccesses_reaches (hlink : isLink c = true) (hself : nextCluster D.toDevice g d c = c)
    (hpos : 0 < g.bytesPerSector) (hcluster : 0 < g.sectorsPerCluster) (hoff : off < size)
    (hn : size - off ≤ n) (buf : Mem) :
    ∃ o, size ≤ o + g.bytesPerSector ∧
      ∀ j < 512, .fileBuf (o + j) ∈ loadAccesses D.toDevice g d size n c buf off := by
  induction n generalizing off buf with
  | zero => omega
  | succ n ih =>
    have hlbas : ∀ lba ∈ (List.range g.sectorsPerCluster).map (g.sectorAt c), lba < 2 ^ 32 := by
      intro lba h
      obtain ⟨s, -, rfl⟩ := List.mem_map.mp h
      exact Nat.mod_lt _ (by decide)
    rw [loadAccesses, if_pos ⟨hlink, hoff⟩]
    rcases loadSectorsAccesses_reaches D hlbas hoff buf with ⟨o, ho, hmem⟩ | ⟨hlt, buf', hres⟩
    · exact ⟨o, ho, fun j hj => List.mem_append_left _ (hmem j hj)⟩
    · rw [List.length_map, List.length_range] at hlt hres
      have hstep : 0 < g.sectorsPerCluster * g.bytesPerSector := Nat.mul_pos hcluster hpos
      obtain ⟨o, ho, hmem⟩ := ih hlt (by omega) buf'
      refine ⟨o, ho, fun j hj => ?_⟩
      simp only [hres, hself]
      exact List.mem_append_right _ (List.mem_append_right _ (hmem j hj))

/-- Behind the boot sector all bytes are 1, so that every entry links to the same cluster. -/
def onesDisk (sec : Sector) (lba : ℕ) : Sector := if lba = 0 then sec else fun _ => 1

theorem onesDisk_self (hg : g.Sized) (hpos : 0 < g.bytesPerSector) (hle : g.bytesPerSector ≤ 510)
    (sec : Sector) : nextCluster arrayDisk.toDevice g (onesDisk sec) 0x01010101 = 0x01010101 := by
  have hres := hg.reserved_lt
  have hsec : g.fatSector 0x01010101 ≠ 0 := by
    have hoff : 0x01010101 * 4 % 2 ^ 32 = 67372036 := by decide
    have hge : 1 ≤ 67372036 / g.bytesPerSector := Nat.div_pos (by omega) hpos
    have hlt := Nat.div_le_self 67372036 g.bytesPerSector
    rw [Geometry.fatSector, hoff, Nat.mod_eq_of_lt (by omega)]
    omega
  rw [nextCluster_entry, Geometry.fatEntry]
  have hones : arrayDisk.sectors (onesDisk sec) (g.fatSector 0x01010101) = fun _ => 1 := if_neg hsec
  have hload : load (fun _ => (1 : UInt8)) (g.fatOffset 0x01010101) 4 = load (fun _ => 1) 0 4 :=
    load_copy fun _ _ => rfl
  rw [hones, hload]
  decide

/-- What `init_fs` reads from the boot sector is safe for all clusters, file sizes and contents of
the disk exactly when sectors have 512 bytes, or a cluster has no sectors and they are smaller. -/
theorem boot_safe_iff (sec : Sector) :
    (∀ (δ : Type) (dev : Device δ) (d : δ) (g : Geometry), dev.read d 0 = some sec →
      initFs dev d = some g → dev.Safe g d) ↔
    load sec 0x0B 2 = 512 ∨
      load sec 0x0D 1 = 0 ∧ 0 < load sec 0x0B 2 ∧ load sec 0x0B 2 ≤ 510 := by
  constructor
  · intro hall
    obtain ⟨g, hinit⟩ : ∃ g, initFs arrayDisk.toDevice (onesDisk sec) = some g := ⟨_, rfl⟩
    have hbytes : g.bytesPerSector = load sec 0x0B 2 := by
      obtain rfl := Option.some.inj hinit
      rfl
    have hcluster : g.sectorsPerCluster = load sec 0x0D 1 := by
      obtain rfl := Option.some.inj hinit
      rfl
    have hsafe := hall _ arrayDisk.toDevice (onesDisk sec) g rfl hinit
    rw [← hbytes, ← hcluster]
    have hdiv : g.bytesPerSector ≠ 0 := hsafe.table 0 (by decide) _ List.mem_cons_self
    -- the last byte of an entry shows the bound on the sector buffer
    have hword (c : ℕ) (hc : c < 2 ^ 28) : g.fatOffset c + 3 < 512 :=
      hsafe.table c hc (.sector (g.fatOffset c + 3)) (List.mem_cons_of_mem _
        (List.mem_map.mpr ⟨3, by decide, rfl⟩))
    have h128 : 512 % g.bytesPerSector + 3 < 512 := hword 128 (by decide)
    have h383 : 1532 % g.bytesPerSector + 3 < 512 := hword 383 (by decide)
    have hle : g.bytesPerSector ≤ 510 ∨ g.bytesPerSector = 512 := by
      by_contra hbig
      by_cases h511 : g.bytesPerSector = 511
      · rw [h511] at h383
        omega
      · rw [Nat.mod_eq_of_lt (by omega)] at h128
        omega
    rcases hle with hle | h512
    · refine .inr ⟨?_, by omega, hle⟩
      -- else a file of full length is loaded beyond the end of its buffer
      by_contra hne
      obtain ⟨o, ho, hmem⟩ := loadAccesses_reaches arrayDisk (c := 0x01010101) (by decide)
        (onesDisk_self (initFs_sized hinit) (by omega) hle sec) (by omega) (by omega)
        (show 0 < 32768 by decide) (Nat.le_refl _) (fun _ => 0)
      have hlast : o + 511 < 32768 := by
        refine hsafe.load 0x01010101 (by decide) 32768 32768 (fun _ => 0) (.fileBuf (o + 511)) ?_
        exact hmem 511 (by decide)
      omega
    · exact .inl h512
  · intro hcond δ dev d g hread hinit
    apply dev.safe_of_geometry
    rw [initFs, hread] at hinit
    obtain rfl := Option.some.inj hinit
    exact hcond

/-- Sectors of 1024 bytes: the entry of cluster 128 is read behind the sector buffer. -/
theorem boot_reads_behind_buffer : ∃ (S : ℕ → Sector) (g : Geometry),
    initFs arrayDisk.toDevice S = some g ∧ g.bytesPerSector = 1024 ∧
    .sector 512 ∈ fatAccesses arrayDisk.toDevice g S 128 ∧ ¬ (Access.sector 512).Allowed := by
  refine ⟨fun _ => store (fun _ => 0) 0x0B 2 1024, _, rfl, by decide, by decide, ?_⟩
  exact Nat.lt_irrefl 512

end Necessary

end Mukrn.Fat32
