import Mukrn.Fat32.Accesses
import Mukrn.Fat32.Messages

/-! The two ways to read a file. A request of type 0 sends the bytes of each sector in messages, a
request of type 1 reads the sectors one behind the other into the file buffer. On the same chain the
two loops go on in step: the offset of the first is that of the second, cut off at the size. -/
namespace Mukrn.Fat32
open ByteMemory

/-- Messages with the bytes of a file from `off` up to `stop`. Each says where its bytes start and
how many they are, at most 59, and the next one goes on behind them. -/
def Stream (stop : ℕ) : ℕ → List Reply → Prop
  | off, [] => off = stop
  | off, m :: ms => ∃ chunk, 1 ≤ chunk ∧ chunk ≤ 59 ∧ m.type = 100 ∧ m.offset = off ∧
    m.data.getD 4 0 = UInt8.ofNat chunk ∧ m.data.length = 5 + chunk ∧ Stream stop (off + chunk) ms

theorem Stream.append {off mid stop : ℕ} {ms ms' : List Reply} (h : Stream mid off ms)
    (h' : Stream stop mid ms') : Stream stop off (ms ++ ms') := by
  induction ms generalizing off with
  | nil =>
    obtain rfl : off = mid := h
    exact h'
  | cons m ms ih =>
    obtain ⟨chunk, hpos, hle, htype, hoff, hlen, hdata, hrest⟩ := h
    exact ⟨chunk, hpos, hle, htype, hoff, hlen, hdata, ih hrest⟩

theorem payload_append (ms ms' : List Reply) : payload (ms ++ ms') = payload ms ++ payload ms' :=
  List.flatMap_append

/-- The messages of one sector. -/
theorem chunks_stream (b : ℕ) (sec : Sector) {stop off n : ℕ} (hoff : off ≤ stop)
    (hstop : stop < 2 ^ 32) (hn : stop - off ≤ n) : Stream stop off (chunks b sec stop n off) := by
  induction n generalizing off with
  | zero => exact (by omega : off = stop)
  | succ n ih =>
    rw [chunks]
    split
    next hlt =>
      refine ⟨min (stop - off) 59, by omega, by omega, rfl, offset_message (by omega) _ _, ?_, ?_,
        ih (by omega) (by omega)⟩
      · simp [List.getD_eq_getElem?_getD, List.range_succ]
      · simp only [List.length_append, List.length_map, List.length_range, List.length_singleton]
    · exact (by omega : off = stop)

section Steps

variable {δ : Type} (D : ReliableDisk δ) {g : Geometry} {d : δ} {c size off n : ℕ}

/-- Both loops over the sectors of a cluster, from the same start of a sector. What the one has sent
is what the other has put into the buffer. -/
theorem load_send_sectors (h512 : g.bytesPerSector = 512) (hsize : size ≤ 32768) {lbas : List ℕ}
    (hlbas : ∀ lba ∈ lbas, lba < 2 ^ 32) (hoff : off % 512 = 0) (buf : Mem) :
    ∃ buf' off' msgs, loadSectors D.toDevice g d size lbas buf off = (buf', off', true) ∧
      sendSectors D.toDevice g d size lbas (min off size) = (msgs, min off' size, true) ∧
      off' % 512 = 0 ∧ off ≤ off' ∧ Stream (min off' size) (min off size) msgs ∧
      payload msgs =
        (List.range' (min off size) (min off' size - min off size)).map buf' ∧
      ∀ x < off, buf' x = buf x := by
  induction lbas generalizing off buf with
  | nil =>
    refine ⟨buf, off, [], rfl, rfl, hoff, Nat.le_refl _, rfl, ?_, fun _ _ => rfl⟩
    rw [Nat.sub_self]
    rfl
  | cons lba lbas ih =>
    by_cases hlt : off < size
    · have hread := D.read_eq d lba (hlbas lba (by simp))
      have hnext : (off + 512) % 512 = 0 := by omega
      obtain ⟨buf', off', msgs, hload, hsend, hmod, hle, hstream, hpay, hkeep⟩ :=
        ih (fun lba' h => hlbas lba' (by simp [h])) hnext (fill buf off 512 (D.sectors d lba))
      have hmin : min off size = off := by omega
      have hstop : min ((off + 512) % 2 ^ 32) size = min (off + 512) size := by
        rw [Nat.mod_eq_of_lt (by omega)]
      have hmax : max off (min (off + 512) size) = min (off + 512) size := by omega
      refine ⟨buf', off', chunks 512 (D.sectors d lba) (min (off + 512) size)
        (min (off + 512) size - off) off ++ msgs, ?_, ?_, hmod, by omega, ?_, ?_, ?_⟩
      · rw [loadSectors, if_pos hlt, hread, h512]
        exact hload
      · rw [sendSectors, hmin, if_pos hlt, hread, h512]
        simp only [hstop, hmax, hsend]
      · rw [hmin]
        exact (chunks_stream 512 _ (by omega) (by omega) (Nat.le_refl _)).append hstream
      · obtain ⟨-, hchunks⟩ := chunks_payload (D.sectors d lba) off hoff (Nat.le_refl off)
          (by omega : min (off + 512) size ≤ off + 512) (Nat.le_refl _)
        have hsum : min off' size - off =
            min (off + 512) size - off + (min off' size - min (off + 512) size) := by omega
        have hfirst : (List.range' off (min (off + 512) size - off)).map
            (fun x => D.sectors d lba (x - off)) =
              (List.range' off (min (off + 512) size - off)).map buf' := by
          apply List.map_congr_left
          intro x hx
          have hx := List.mem_range'_1.mp hx
          rw [hkeep x (by omega), fill_inside hx.1 (by omega)]
        rw [payload_append, hpay, hchunks, hfirst, hmin, hsum, ← List.range'_append_1,
          List.map_append, Nat.add_sub_of_le (by omega : off ≤ min (off + 512) size)]
      · intro x hx
        rw [hkeep x (by omega), fill_outside (.inl hx)]
    · have hmin : min off size = size := by omega
      refine ⟨buf, off, [], ?_, ?_, hoff, Nat.le_refl _, rfl, ?_, fun _ _ => rfl⟩
      · rw [loadSectors, if_neg hlt]
      · rw [sendSectors, hmin, if_neg (lt_irrefl size)]
      · rw [Nat.sub_self]
        rfl

/-- When the file could be loaded, the messages of a read carry the bytes of the buffer. -/
theorem load_send_loop (h512 : g.bytesPerSector = 512) (hsize : size ≤ 32768)
    (hoff : off % 512 = 0) {buf buf' : Mem} {off' : ℕ}
    (hload : loadLoop D.toDevice g d size n c buf off = some (buf', some off'))
    (hend : size ≤ off') :
    ∃ msgs, sendLoop D.toDevice g d size n c (min off size) = some (msgs ++ [⟨101, []⟩]) ∧
      Stream size (min off size) msgs ∧
      payload msgs = (List.range' (min off size) (size - min off size)).map buf' ∧
      ∀ x < off, buf' x = buf x := by
  induction n generalizing c buf off with
  | zero => cases hload
  | succ n ih =>
    rw [loadLoop] at hload
    rw [sendLoop]
    by_cases hgo : isLink c = true ∧ off < size
    · have hlbas : ∀ lba ∈ (List.range g.sectorsPerCluster).map (g.sectorAt c), lba < 2 ^ 32 := by
        intro lba h
        obtain ⟨s, -, rfl⟩ := List.mem_map.mp h
        exact Nat.mod_lt _ (by decide)
      obtain ⟨buf₁, off₁, msgs, hsectors, hsend, hmod, hle, hstream, hpay, hkeep⟩ :=
        load_send_sectors D h512 hsize hlbas hoff buf
      rw [if_pos hgo, hsectors] at hload
      obtain ⟨rest, hrest, hstream', hpay', hkeep'⟩ := ih hmod hload
      refine ⟨msgs ++ rest, ?_, hstream.append hstream', ?_, ?_⟩
      · rw [if_pos ⟨hgo.1, by omega⟩, hsend]
        simp only [hrest, Option.map_some, List.append_assoc]
      · have hsum : size - min off size =
            min off₁ size - min off size + (size - min off₁ size) := by omega
        have hfirst : (List.range' (min off size) (min off₁ size - min off size)).map buf₁ =
            (List.range' (min off size) (min off₁ size - min off size)).map buf' := by
          apply List.map_congr_left
          intro x hx
          have hx := List.mem_range'_1.mp hx
          exact (hkeep' x (by omega)).symm
        rw [payload_append, hpay, hpay', hfirst, hsum, ← List.range'_append_1, List.map_append,
          Nat.add_sub_of_le (by omega : min off size ≤ min off₁ size)]
      · intro x hx
        rw [hkeep' x (by omega), hkeep x hx]
    · -- the loop is over: with the chain at its end it would have stopped short of the size
      rw [if_neg hgo] at hload
      obtain ⟨rfl, hoff'⟩ := Prod.mk.inj (Option.some.inj hload)
      obtain rfl := Option.some.inj hoff'
      have hmin : min off size = size := by omega
      refine ⟨[], ?_, hmin, ?_, fun _ _ => rfl⟩
      · rw [if_neg (by omega)]
        rfl
      · rw [hmin, Nat.sub_self]
        rfl

/-- For every entry whose file the loop of a request of type 1 loads completely: the loop stays
inside the file buffer, and the loop of a request of type 0 sends what is in the buffer, in messages
of 1 to 59 bytes that follow each other from offset 0. -/
theorem stream_eq_bulk (h512 : g.bytesPerSector = 512) (hsize : size ≤ 32768) {buf buf' : Mem}
    (hload : loadLoop D.toDevice g d size maxSteps c buf 0 = some (buf', some off))
    (hend : size ≤ off) :
    (∀ a ∈ loadAccesses D.toDevice g d size maxSteps c buf 0, a.Allowed) ∧
    ∃ msgs, sendLoop D.toDevice g d size maxSteps c 0 = some (msgs ++ [⟨101, []⟩]) ∧
      Stream size 0 msgs ∧ payload msgs = (List.range size).map buf' := by
  refine ⟨loadAccesses_allowed h512 hsize d maxSteps c buf (Nat.zero_mod _), ?_⟩
  obtain ⟨msgs, hsend, hstream, hpay, -⟩ := load_send_loop D h512 hsize (Nat.zero_mod _) hload hend
  simp only [Nat.zero_min, Nat.sub_zero, ← List.range_eq_range'] at hsend hstream hpay
  exact ⟨msgs, hsend, hstream, hpay⟩

/-- A file of 100 bytes, in two messages, on a disk full of sevens. -/
theorem stream_eq_bulk_sample : ∃ msgs,
    sendLoop arrayDisk.toDevice ⟨512, 1, 32, 1, 8, 2⟩ (fun _ _ => 7) 100 maxSteps 2 0 =
      some (msgs ++ [⟨101, []⟩]) ∧ Stream 100 0 msgs ∧ payload msgs = List.replicate 100 7 := by
  have hsteps : maxSteps = 268435454 + 1 + 1 := rfl
  have hload : loadLoop arrayDisk.toDevice ⟨512, 1, 32, 1, 8, 2⟩ (fun _ _ => 7) 100 maxSteps 2
      (fun _ => 0) 0 = some (fill (fun _ => 0) 0 512 fun _ => 7, some 512) := by
    rw [hsteps, loadLoop, if_pos (by decide)]
    exact if_neg (by decide)
  obtain ⟨-, msgs, hsend, hstream, hpay⟩ := stream_eq_bulk arrayDisk rfl (by decide) hload
    (by decide)
  exact ⟨msgs, hsend, hstream, hpay⟩

end Steps

end Mukrn.Fat32
