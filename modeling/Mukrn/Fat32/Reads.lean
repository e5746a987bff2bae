import Mukrn.Fat32.Tree

/-! What a read request sends: it only depends on the chain it follows. -/
namespace Mukrn.Fat32

theorem padTo_length {n : ℕ} {s : List UInt8} (h : s.length ≤ n) : (padTo n s).length = n := by
  simp [padTo, h]

theorem to83_length (path : List UInt8) : (to83 path).length = 11 := by
  simp [to83, padTo_length]

private theorem upper_ne {b : UInt8} (h46 : b ≠ 46) (h0 : b ≠ 0) : upper b ≠ 46 ∧ upper b ≠ 0 := by
  have hcheck : ∀ b : Fin 256, UInt8.ofNat b ≠ 46 → UInt8.ofNat b ≠ 0 →
      upper (UInt8.ofNat b) ≠ 46 ∧ upper (UInt8.ofNat b) ≠ 0 := by decide +kernel
  have hb : UInt8.ofNat (⟨b.toNat, b.toNat_lt⟩ : Fin 256) = b := by simp
  have h := hcheck ⟨b.toNat, b.toNat_lt⟩
  rw [hb] at h
  exact h h46 h0

/-- A name made from a path starts neither with a dot nor with a zero. -/
theorem to83_first {path : List UInt8} (h0 : 0 ∉ path) :
    (to83 path).getD 0 0 ≠ 46 ∧ (to83 path).getD 0 0 ≠ 0 := by
  cases path with
  | nil => decide
  | cons b path =>
    have hb0 : b ≠ 0 := fun h => h0 (by simp [h])
    by_cases hb : b = 46
    · subst hb
      simp [to83, padTo, List.replicate]
    · have hup := upper_ne hb hb0
      simpa [to83, padTo, hb] using hup

/-- The file bytes in the messages of a read. -/
def payload (msgs : List Reply) : List UInt8 := msgs.flatMap fun m => m.data.drop 5

/-- The messages of a sector that starts at offset `base` of the file. -/
theorem chunks_payload (sec : Sector) {base stop n : ℕ} (off : ℕ) (hbase : base % 512 = 0)
    (hoff : base ≤ off) (hstop : stop ≤ base + 512) (hn : stop - off ≤ n) :
    (∀ m ∈ chunks 512 sec stop n off, m.type = 100) ∧
      payload (chunks 512 sec stop n off) =
        (List.range' off (stop - off)).map fun x => sec (x - base) := by
  induction n generalizing off with
  | zero =>
    have h0 : stop - off = 0 := by omega
    refine ⟨fun m hm => (by cases hm), ?_⟩
    rw [h0]
    rfl
  | succ n ih =>
    rw [chunks]
    split
    next hlt =>
      have hsplit : stop - off = min (stop - off) 59 + (stop - (off + min (stop - off) 59)) := by
        omega
      obtain ⟨htype, hpay⟩ := ih (off + min (stop - off) 59) (by omega) (by omega)
      constructor
      · intro m hm
        rcases List.mem_cons.mp hm with rfl | hm
        · rfl
        · exact htype m hm
      · have hmod : off % 512 = off - base := by omega
        rw [payload, List.flatMap_cons, ← payload, hpay, hsplit, ← List.range'_append_1,
          List.map_append, ← hsplit, hmod]
        congr 1
        rw [List.drop_left' (by simp), List.range'_eq_map_range, List.map_map]
        apply List.map_congr_left
        intro j _
        rw [Function.comp_apply]
        congr 1
        omega
    next hlt =>
      have h0 : stop - off = 0 := by omega
      refine ⟨fun m hm => (by cases hm), ?_⟩
      rw [h0]
      rfl

/-- A message with bytes of a file. -/
def Reply.IsData (m : Reply) : Prop := m.type = 100 ∧ 5 < m.data.length

theorem chunks_isData {b n off stop : ℕ} {sec : Sector} :
    ∀ m ∈ chunks b sec stop n off, m.IsData := by
  induction n generalizing off with
  | zero => exact fun m hm => (by cases hm)
  | succ n ih =>
    rw [chunks]
    split
    next hlt =>
      intro m hm
      rcases List.mem_cons.mp hm with rfl | hm
      · refine ⟨rfl, ?_⟩
        simp only [List.length_append, List.length_map, List.length_range, List.length_singleton]
        omega
      · exact ih m hm
    · exact fun m hm => (by cases hm)

theorem payload_ne_nil {msgs : List Reply} (h : ∀ m ∈ msgs, m.IsData) (hne : msgs ≠ []) :
    payload msgs ≠ [] := by
  obtain ⟨m, rest, rfl⟩ := List.exists_cons_of_ne_nil hne
  have hlen := (h m (by simp)).2
  intro hnil
  have h0 : (m.data.drop 5).length = 0 := by
    rw [payload, List.flatMap_cons, List.append_eq_nil_iff] at hnil
    rw [hnil.1]
    rfl
  rw [List.length_drop] at h0
  omega

theorem sendSectors_isData {δ : Type} (dev : Device δ) (g : Geometry) (d : δ) (size : ℕ)
    (ls : List ℕ) (off : ℕ) : ∀ m ∈ (sendSectors dev g d size ls off).1, m.IsData := by
  induction ls generalizing off with
  | nil => exact fun m hm => (by cases hm)
  | cons lba ls ih =>
    rw [sendSectors]
    split
    · split
      · exact fun m hm => (by cases hm)
      · intro m hm
        rcases List.mem_append.mp hm with hm | hm
        · exact chunks_isData m hm
        · exact ih _ m hm
    · exact fun m hm => (by cases hm)

/-- A read sends data and then says how it ended. -/
theorem sendLoop_messages {δ : Type} {dev : Device δ} {g : Geometry} {d : δ} {size n c off : ℕ}
    {out : List Reply} (h : sendLoop dev g d size n c off = some out) :
    ∃ msgs, (∀ m ∈ msgs, m.IsData) ∧ (out = msgs ++ [⟨101, []⟩] ∨ out = msgs ++ refused) := by
  induction n generalizing c off out with
  | zero => cases h
  | succ n ih =>
    rw [sendLoop] at h
    split at h
    · obtain ⟨msgs, off', ok, hres⟩ : ∃ msgs off' ok, sendSectors dev g d size
          ((List.range g.sectorsPerCluster).map (g.sectorAt c)) off = (msgs, off', ok) :=
        ⟨_, _, _, rfl⟩
      have hmsgs : ∀ m ∈ msgs, m.IsData := by
        have hall := sendSectors_isData dev g d size
          ((List.range g.sectorsPerCluster).map (g.sectorAt c)) off
        rwa [hres] at hall
      rw [hres] at h
      cases ok with
      | false => exact ⟨msgs, hmsgs, .inr (Option.some.inj h).symm⟩
      | true =>
        obtain ⟨rest, hrest, hout⟩ := Option.map_eq_some_iff.mp h
        obtain ⟨msgs', hmsgs', hor⟩ := ih hrest
        refine ⟨msgs ++ msgs', ?_, ?_⟩
        · intro m hm
          rcases List.mem_append.mp hm with hm | hm
          · exact hmsgs m hm
          · exact hmsgs' m hm
        · rw [← hout, List.append_assoc, List.append_assoc]
          rcases hor with rfl | rfl
          · exact .inl rfl
          · exact .inr rfl
    · exact ⟨[], fun m hm => (by cases hm), .inl (Option.some.inj h).symm⟩

section Reads

variable {δ : Type} (D : ReliableDisk δ) {L : Layout} {S₀ S₀' : ℕ → Sector} {V V' : Volume}
  {d d' : δ} {c size : ℕ} {l : List ℕ}

/-- Nothing is sent of an empty file or one without a chain. -/
theorem sendLoop_empty (dev : Device δ) (g : Geometry) (d : δ)
    (h : size = 0 ∨ isLink c = false) : sendLoop dev g d size maxSteps c 0 = some [⟨101, []⟩] := by
  have hsteps : maxSteps = 268435455 + 1 := rfl
  rw [hsteps, sendLoop, if_neg]
  rintro ⟨hlink, hlt⟩
  rcases h with h | h
  · omega
  · rw [h] at hlink
    cases hlink

/-- A file that fits the first sector of its chain. -/
theorem sendLoop_small (h : L.Holds S₀ (D.sectors d) V) (hc : L.IsCluster c) (hsize : 0 < size)
    (hle : size ≤ 512) :
    sendLoop D.toDevice L.toGeometry d size maxSteps c 0 =
      some (chunks 512 (V.data c 0) size size 0 ++ [⟨101, []⟩]) := by
  have hsec : sendSectors D.toDevice L.toGeometry d size
      ((List.range L.sectorsPerCluster).map (L.sectorAt c)) 0 =
        (chunks 512 (V.data c 0) size size 0, size, true) := by
    obtain ⟨m, hm⟩ : ∃ m, L.sectorsPerCluster = m + 1 :=
      Nat.exists_eq_succ_of_ne_zero L.sectors_pos.ne'
    have hmin : min ((0 + 512) % 2 ^ 32) size = size := by omega
    simp only [hm, List.range_succ_eq_map, List.map_cons, sendSectors, if_pos hsize,
      read_sectorAt D h hc L.sectors_pos, L.bytes_eq, hmin, Nat.sub_zero, Nat.zero_max]
    cases m with
    | zero => simp [sendSectors]
    | succ m => simp [List.range_succ_eq_map, sendSectors]
  have hsteps : maxSteps = 268435454 + 1 + 1 := rfl
  rw [hsteps, sendLoop, if_pos ⟨hc.isLink, hsize⟩]
  simp only [hsec]
  rw [sendLoop, if_neg (by simp)]
  rfl

theorem sendSectors_congr (h : L.Holds S₀ (D.sectors d) V) (h' : L.Holds S₀' (D.sectors d') V')
    (hc : L.IsCluster c) (hdata : V'.data c = V.data c) {ss : List ℕ}
    (hs : ∀ s ∈ ss, s < L.sectorsPerCluster) (size off : ℕ) :
    sendSectors D.toDevice L.toGeometry d' size (ss.map (L.sectorAt c)) off =
      sendSectors D.toDevice L.toGeometry d size (ss.map (L.sectorAt c)) off ∧
    (sendSectors D.toDevice L.toGeometry d size (ss.map (L.sectorAt c)) off).2.2 = true := by
  induction ss generalizing off with
  | nil => exact ⟨rfl, rfl⟩
  | cons s ss ih =>
    have hlt := hs s (by simp)
    have hih := ih fun s' hs' => hs s' (by simp [hs'])
    simp only [List.map_cons, sendSectors, read_sectorAt D h hc hlt, read_sectorAt D h' hc hlt,
      hdata]
    split
    · obtain ⟨heq, hok⟩ := hih (max off (min ((off + L.bytesPerSector) % 2 ^ 32) size))
      rw [heq]
      exact ⟨rfl, hok⟩
    · exact ⟨rfl, rfl⟩

/-- At least one message is sent of a file with data. -/
theorem sendLoop_ne_end (h : L.Holds S₀ (D.sectors d) V) (hc : L.IsCluster c) (hsize : 0 < size) :
    sendLoop D.toDevice L.toGeometry d size maxSteps c 0 ≠ some [⟨101, []⟩] := by
  obtain ⟨m, hm⟩ : ∃ m, L.sectorsPerCluster = m + 1 :=
    Nat.exists_eq_succ_of_ne_zero L.sectors_pos.ne'
  obtain ⟨msgs, off', ok, hres, hne⟩ : ∃ msgs off' ok, sendSectors D.toDevice L.toGeometry d size
      ((List.range L.sectorsPerCluster).map (L.sectorAt c)) 0 = (msgs, off', ok) ∧ msgs ≠ [] := by
    refine ⟨_, _, _, rfl, ?_⟩
    obtain ⟨j, hj⟩ : ∃ j, min ((0 + 512) % 2 ^ 32) size - 0 = j + 1 :=
      Nat.exists_eq_succ_of_ne_zero (by omega)
    simp only [hm, List.range_succ_eq_map, List.map_cons, sendSectors, if_pos hsize,
      read_sectorAt D h hc L.sectors_pos, L.bytes_eq, hj, chunks]
    rw [if_pos (by omega)]
    simp
  have hsteps : maxSteps = 268435455 + 1 := rfl
  rw [hsteps, sendLoop, if_pos ⟨hc.isLink, hsize⟩, hres]
  intro hend
  have hlen (rest : List Reply) (hrest : rest ≠ []) (heq : msgs ++ rest = [⟨101, []⟩]) : False := by
    have hl := congrArg List.length heq
    have h₁ := List.length_pos_of_ne_nil hne
    have h₂ := List.length_pos_of_ne_nil hrest
    rw [List.length_append, List.length_singleton] at hl
    omega
  cases ok with
  | false => exact hlen refused (List.cons_ne_nil _ _) (Option.some.inj hend)
  | true =>
    obtain ⟨rest, hrest, hout⟩ := Option.map_eq_some_iff.mp hend
    obtain ⟨msgs', -, hor⟩ := sendLoop_messages hrest
    refine hlen rest ?_ hout
    rcases hor with rfl | rfl <;> simp [refused]

/-- Two disks with the same chain send the same, and the read ends. -/
theorem sendLoop_congr (h : L.Holds S₀ (D.sectors d) V) (h' : L.Holds S₀' (D.sectors d') V')
    (hl : L.Chain V c l) (hV : ∀ a ∈ l, V'.fat a = V.fat a ∧ V'.data a = V.data a) {n : ℕ}
    (hn : l.length < n) (off : ℕ) :
    sendLoop D.toDevice L.toGeometry d' size n c off =
      sendLoop D.toDevice L.toGeometry d size n c off ∧
    ∃ msgs, sendLoop D.toDevice L.toGeometry d size n c off = some (msgs ++ [⟨101, []⟩]) := by
  induction l generalizing c n off with
  | nil =>
    cases n with
    | zero => cases hn
    | succ n =>
      rw [sendLoop, sendLoop, if_neg (by simp [hl.not_link]), if_neg (by simp [hl.not_link])]
      exact ⟨rfl, [], rfl⟩
  | cons a l ih =>
    cases n with
    | zero => cases hn
    | succ n =>
      obtain ⟨rfl, hc, -, ht⟩ := Layout.Chain.cons_iff.mp hl
      obtain ⟨hfat, hdata⟩ := hV c (by simp)
      rw [sendLoop, sendLoop]
      split
      · obtain ⟨heq, hok⟩ := sendSectors_congr D h h' hc hdata
          (fun s hs => List.mem_range.mp hs) size off
        obtain ⟨msgs, off', ok, hres⟩ : ∃ msgs off' ok, sendSectors D.toDevice L.toGeometry d size
            ((List.range L.sectorsPerCluster).map (L.sectorAt c)) off = (msgs, off', ok) :=
          ⟨_, _, _, rfl⟩
        rw [heq, hres]
        rw [hres] at hok
        simp only at hok
        subst hok
        obtain ⟨hrest, rest, hsome⟩ := ih ht (fun b hb => hV b (by simp [hb]))
          (Nat.lt_of_succ_lt_succ hn) off'
        simp only [nextCluster_eq D h hc, nextCluster_eq D h' hc, hfat, hrest, hsome,
          Option.map_some, true_and]
        exact ⟨msgs ++ rest, by rw [List.append_assoc]⟩
      · exact ⟨rfl, [], rfl⟩

end Reads

end Mukrn.Fat32
