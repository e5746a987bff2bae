import Mukrn.Fat32.Write

/-! The messages of a read request: which they are, in which order, and how many. -/
namespace Mukrn.Fat32
open ByteMemory

/-- The offset at the start of a message with file data. -/
def Reply.offset (m : Reply) : ℕ := load (fun i => m.data.getD i 0) 0 4

/-- The messages for the sectors of a file from the offset on. -/
def sectorMessages (size : ℕ) : ℕ → List Sector → List Reply
  | _, [] => []
  | off, sec :: rest =>
    if off < size then
      let stop := min ((off + 512) % 2 ^ 32) size
      chunks 512 sec stop (stop - off) off ++ sectorMessages size (max off stop) rest
    else []

/-- The offset behind `n` sectors. -/
def reached (size : ℕ) : ℕ → ℕ → ℕ
  | off, 0 => off
  | off, n + 1 =>
    if off < size then reached size (max off (min ((off + 512) % 2 ^ 32) size)) n else off

/-- The sectors of a chain in their order. -/
def Layout.sectorsOf (L : Layout) (V : Volume) (l : List ℕ) : List Sector :=
  l.flatMap fun c => (List.range L.sectorsPerCluster).map (V.data c)

theorem Layout.sectorsOf_cons (L : Layout) (V : Volume) (c : ℕ) (l : List ℕ) :
    L.sectorsOf V (c :: l) =
      (List.range L.sectorsPerCluster).map (V.data c) ++ L.sectorsOf V l := List.flatMap_cons

theorem Layout.length_sectorsOf (L : Layout) (V : Volume) (l : List ℕ) :
    (L.sectorsOf V l).length = L.sectorsPerCluster * l.length := by
  induction l with
  | nil => rfl
  | cons c l ih =>
    rw [sectorsOf_cons, List.length_append, ih]
    simp [Nat.mul_add, Nat.add_comm]

/-- The number of messages for the first `n` bytes of a file: nine for each full sector. -/
def chunkCount (n : ℕ) : ℕ := 9 * (n / 512) + (n % 512 + 58) / 59

section Messages

variable {size off stop n : ℕ} {sec : Sector} {ss ss' : List Sector}

theorem sectorMessages_of_le (h : size ≤ off) (ss : List Sector) :
    sectorMessages size off ss = [] := by
  cases ss with
  | nil => rfl
  | cons sec ss => rw [sectorMessages, if_neg (Nat.not_lt.mpr h)]

theorem reached_of_le (h : size ≤ off) (n : ℕ) : reached size off n = off := by
  cases n with
  | zero => rfl
  | succ n => rw [reached, if_neg (Nat.not_lt.mpr h)]

theorem sectorMessages_append (size off : ℕ) (ss ss' : List Sector) :
    sectorMessages size off (ss ++ ss') =
      sectorMessages size off ss ++ sectorMessages size (reached size off ss.length) ss' := by
  induction ss generalizing off with
  | nil => rfl
  | cons sec ss ih =>
    by_cases hlt : off < size
    · simp only [List.cons_append, sectorMessages, if_pos hlt, ih, List.length_cons, reached,
        List.append_assoc]
    · have hle := Nat.not_lt.mp hlt
      rw [sectorMessages_of_le hle, sectorMessages_of_le hle, reached_of_le hle,
        sectorMessages_of_le hle]
      rfl

/-- A message starts with its offset. -/
theorem offset_message (hoff : off < 2 ^ 32) (chunk : ℕ) (body : List UInt8) :
    Reply.offset ⟨100, (List.range 4).map (byteAt off) ++ [UInt8.ofNat chunk] ++ body⟩ = off := by
  have hload := load_store (fun _ => 0) 0 4 off
  rw [Nat.mod_eq_of_lt (by omega)] at hload
  refine Eq.trans (load_congr fun i hi => ?_) hload
  rw [store, fill_inside (by omega) (by omega), List.getD_eq_getElem?_getD, List.append_assoc,
    List.getElem?_append_left (by simpa using hi)]
  simp [hi]

/-- The messages of one sector lie between the offset and the end, in ascending order. -/
theorem chunks_offsets (sec : Sector) (n off : ℕ) (hstop : stop ≤ 2 ^ 32) :
    (∀ m ∈ chunks 512 sec stop n off, off ≤ m.offset ∧ m.offset < stop ∧ m.data.length ≤ 64) ∧
      (chunks 512 sec stop n off).Pairwise (fun m m' => m.offset < m'.offset) := by
  induction n generalizing off with
  | zero => exact ⟨fun m hm => (by cases hm), .nil⟩
  | succ n ih =>
    rw [chunks]
    split
    next hlt =>
      obtain ⟨hbound, hord⟩ := ih (off + min (stop - off) 59)
      have hhead := offset_message (show off < 2 ^ 32 by omega) (min (stop - off) 59)
      constructor
      · intro m hm
        rcases List.mem_cons.mp hm with rfl | hm
        · rw [hhead]
          refine ⟨Nat.le_refl _, hlt, ?_⟩
          simp only [List.length_append, List.length_map, List.length_range, List.length_singleton]
          omega
        · have hm' := hbound m hm
          omega
      · refine .cons (fun m hm => ?_) hord
        rw [hhead]
        have hm' := hbound m hm
        omega
    · exact ⟨fun m hm => (by cases hm), .nil⟩

/-- All messages are sent in the order of their offsets. -/
theorem sectorMessages_offsets (hsize : size ≤ 2 ^ 32) (off : ℕ) (ss : List Sector) :
    (∀ m ∈ sectorMessages size off ss, m.IsData ∧ off ≤ m.offset ∧ m.data.length ≤ 64) ∧
      (sectorMessages size off ss).Pairwise (fun m m' => m.offset < m'.offset) := by
  induction ss generalizing off with
  | nil => exact ⟨fun m hm => (by cases hm), .nil⟩
  | cons sec ss ih =>
    rw [sectorMessages]
    split
    next hlt =>
      generalize hstop : min ((off + 512) % 2 ^ 32) size = stop
      have hle : stop ≤ 2 ^ 32 := by omega
      obtain ⟨hchunk, hord⟩ := chunks_offsets sec (stop - off) off hle
      obtain ⟨hrest, hord'⟩ := ih (max off stop)
      constructor
      · intro m hm
        rcases List.mem_append.mp hm with hm | hm
        · exact ⟨chunks_isData m hm, (hchunk m hm).1, (hchunk m hm).2.2⟩
        · obtain ⟨hdata, hle', hlen⟩ := hrest m hm
          exact ⟨hdata, (le_max_left _ _).trans hle', hlen⟩
      · refine List.pairwise_append.mpr ⟨hord, hord', fun m hm m' hm' => ?_⟩
        exact (hchunk m hm).2.1.trans_le ((le_max_right _ _).trans (hrest m' hm').2.1)
    · exact ⟨fun m hm => (by cases hm), .nil⟩

theorem length_chunks (hn : stop - off ≤ n) :
    (chunks 512 sec stop n off).length = (stop - off + 58) / 59 := by
  induction n generalizing off with
  | zero =>
    have h0 : stop - off = 0 := by omega
    rw [h0]
    rfl
  | succ n ih =>
    rw [chunks]
    split
    next hlt =>
      rw [List.length_cons, ih (by omega)]
      omega
    next hlt =>
      have h0 : stop - off = 0 := by omega
      rw [h0]
      rfl

/-- Where the end of no sector wraps, the messages can be counted. -/
theorem length_sectorMessages (hsize : size ≤ 2 ^ 32 - 512) (i : ℕ) (ss : List Sector) :
    (sectorMessages size (512 * i) ss).length + chunkCount (min size (512 * i)) =
      chunkCount (min size (512 * (i + ss.length))) := by
  induction ss generalizing i with
  | nil => simp [sectorMessages]
  | cons sec ss ih =>
    by_cases hlt : 512 * i < size
    · have hmod : (512 * i + 512) % 2 ^ 32 = 512 * i + 512 := Nat.mod_eq_of_lt (by omega)
      simp only [sectorMessages, if_pos hlt, hmod, List.length_append, List.length_cons]
      rw [length_chunks (Nat.le_refl _)]
      by_cases hfull : 512 * i + 512 ≤ size
      · have hnext : max (512 * i) (min (512 * i + 512) size) = 512 * (i + 1) := by omega
        have hih := ih (i + 1)
        have hcount : chunkCount (min size (512 * (i + 1))) =
            9 + chunkCount (min size (512 * i)) := by
          rw [Nat.min_eq_right (by omega), Nat.min_eq_right (by omega)]
          unfold chunkCount
          omega
        rw [hnext]
        rw [hcount, show i + 1 + ss.length = i + (ss.length + 1) by omega] at hih
        rw [Nat.min_eq_left hfull]
        omega
      · rw [sectorMessages_of_le (by omega), Nat.min_eq_right (by omega : 512 * i ≤ size),
          Nat.min_eq_left (by omega : size ≤ 512 * (i + (ss.length + 1)))]
        unfold chunkCount
        simp only [List.length_nil]
        omega
    · rw [sectorMessages_of_le (Nat.not_lt.mp hlt), Nat.min_eq_left (by omega),
        Nat.min_eq_left (by omega)]
      exact Nat.zero_add _

/-- Whether at most 16 messages are sent can be told from the length of the file, also where the
end of a sector wraps. -/
theorem sectorMessages_le_iff (size q : ℕ) (ss : List Sector) :
    q + (sectorMessages size 0 ss).length ≤ 16 ↔
      q + chunkCount (min size (512 * ss.length)) ≤ 16 := by
  by_cases hsize : size ≤ 2 ^ 32 - 512
  · have hcount := length_sectorMessages hsize 0 ss
    simp only [Nat.mul_zero, Nat.zero_le, Nat.min_eq_right, Nat.zero_add] at hcount
    have h0 : chunkCount 0 = 0 := rfl
    omega
  · have hmod : (0 + 512) % 2 ^ 32 = 512 := rfl
    have hmin : min 512 size = 512 := by omega
    cases ss with
    | nil =>
      simp [sectorMessages, chunkCount]
    | cons sec ss =>
      have hfirst : (sectorMessages size 0 (sec :: ss)).length =
          9 + (sectorMessages size 512 ss).length := by
        rw [sectorMessages, if_pos (by omega)]
        simp only [hmod, hmin, Nat.zero_max]
        rw [List.length_append, length_chunks (Nat.le_refl _)]
      cases ss with
      | nil =>
        have hone : chunkCount (min size (512 * [sec].length)) = 9 := by
          rw [Nat.min_eq_right (by simp; omega)]
          simp [chunkCount]
        rw [hfirst, hone]
        rfl
      | cons sec' ss =>
        -- Two full sectors are more than the queue holds.
        have hmod' : (512 + 512) % 2 ^ 32 = 1024 := rfl
        have hmin' : min 1024 size = 1024 := by omega
        have hsecond : 9 ≤ (sectorMessages size 512 (sec' :: ss)).length := by
          rw [sectorMessages, if_pos (by omega)]
          simp only [hmod', hmin']
          rw [List.length_append, length_chunks (Nat.le_refl _)]
          omega
        have hlarge : 1024 ≤ min size (512 * (sec :: sec' :: ss).length) := by
          simp only [List.length_cons]
          omega
        have hcount : 18 ≤ chunkCount (min size (512 * (sec :: sec' :: ss).length)) := by
          unfold chunkCount
          omega
        omega

end Messages

section Reads

variable {δ : Type} (D : ReliableDisk δ) {L : Layout} {S₀ : ℕ → Sector} {V : Volume} {d : δ}
  {c size : ℕ} {l : List ℕ}

theorem sendSectors_eq (h : L.Holds S₀ (D.sectors d) V) (hc : L.IsCluster c) {is : List ℕ}
    (hs : ∀ i ∈ is, i < L.sectorsPerCluster) (size off : ℕ) :
    sendSectors D.toDevice L.toGeometry d size (is.map (L.sectorAt c)) off =
      (sectorMessages size off (is.map (V.data c)), reached size off is.length, true) := by
  induction is generalizing off with
  | nil => rfl
  | cons i is ih =>
    simp only [List.map_cons, sendSectors, read_sectorAt D h hc (hs i (by simp)), L.bytes_eq,
      sectorMessages, List.length_cons, reached, ih fun i' hi' => hs i' (by simp [hi'])]
    split <;> rfl

/-- A read sends the sectors of the chain, as far as the size goes. -/
theorem sendLoop_eq (h : L.Holds S₀ (D.sectors d) V) (hl : L.Chain V c l) {n : ℕ}
    (hn : l.length < n) (size off : ℕ) :
    sendLoop D.toDevice L.toGeometry d size n c off =
      some (sectorMessages size off (L.sectorsOf V l) ++ [⟨101, []⟩]) := by
  induction l generalizing c n off with
  | nil =>
    cases n with
    | zero => cases hn
    | succ n =>
      rw [sendLoop, if_neg (by simp [hl.not_link])]
      rfl
  | cons a l ih =>
    cases n with
    | zero => cases hn
    | succ n =>
      obtain ⟨rfl, hc, -, ht⟩ := Layout.Chain.cons_iff.mp hl
      rw [sendLoop]
      split
      · rw [sendSectors_eq D h hc (fun s hs => List.mem_range.mp hs)]
        simp only [nextCluster_eq D h hc, ih ht (Nat.lt_of_succ_lt_succ hn), Option.map_some]
        rw [Layout.sectorsOf_cons, sectorMessages_append, List.length_map, List.append_assoc]
      next hno =>
        have hle : size ≤ off := by
          by_contra hlt
          exact hno ⟨hc.isLink, Nat.not_le.mp hlt⟩
        rw [sectorMessages_of_le hle]
        rfl

/-- The size of an entry has 32 bits. -/
theorem findInDir_size {dev : Device δ} {g : Geometry} {dir : ℕ} {name : List UInt8}
    (h : findInDir dev g d dir name = some (some (c, size))) : size < 2 ^ 32 := by
  obtain ⟨w, -, hw⟩ := Option.map_eq_some_iff.mp h
  cases w with
  | failed => cases hw
  | missing => cases hw
  | found lba sec r =>
    cases r with
    | endMark => cases hw
    | entry off =>
      have hsize := (Prod.mk.inj (Option.some.inj hw)).2
      rw [← hsize]
      exact load_lt ..

theorem resolvePath_size {dev : Device δ} {g : Geometry} {path : List UInt8}
    (h : resolvePath dev g d path = some (some (c, size))) : size < 2 ^ 32 := by
  unfold resolvePath at h
  split at h
  · exact findInDir_size h
  · split at h
    · cases h
    · obtain ⟨res, -, hres⟩ := Option.bind_eq_some_iff.mp h
      cases res with
      | none => cases hres
      | some e => exact findInDir_size hres

end Reads

section Replies

variable {δ : Type} {dev : Device δ} {spawn : Mem → ℕ → Option ℕ} {s s' : Server δ} {req : Request}
  {path : List UInt8} {r : List Reply}

/-- A read ends with one of two replies. -/
theorem serveRead_end {g : Geometry} {d : δ} (h : serveRead dev g d path = some r) :
    ∃ m ∈ r, m.type = 255 ∨ m.type = 101 := by
  obtain ⟨res, -, hres⟩ := Option.bind_eq_some_iff.mp h
  cases res with
  | none =>
    cases hres
    exact ⟨⟨255, []⟩, by simp [refused], .inl rfl⟩
  | some e =>
    obtain ⟨msgs, -, rfl | rfl⟩ := sendLoop_messages hres
    · exact ⟨⟨101, []⟩, by simp, .inr rfl⟩
    · exact ⟨⟨255, []⟩, by simp [refused], .inl rfl⟩

theorem serveExec_ne_nil {out : List Reply × Mem} (h : serveExec dev spawn s path = some out) :
    out.1 ≠ [] := by
  obtain ⟨res, -, hres⟩ := Option.bind_eq_some_iff.mp h
  cases res with
  | none =>
    cases hres
    simp [refused]
  | some e =>
    dsimp only at hres
    split at hres
    · cases hres
      simp [refused]
    · obtain ⟨⟨buf, off⟩, -, hoff⟩ := Option.bind_eq_some_iff.mp hres
      cases off with
      | none =>
        cases hoff
        simp [refused]
      | some off =>
        dsimp only at hoff
        split at hoff
        · cases hoff
          simp [refused]
        · split at hoff <;> cases hoff <;> simp [refused]

theorem inParent_ne_nil {change : ℕ → List UInt8 → Option (Bool × δ)}
    (h : inParent dev s path change = some (.replied r s')) : r ≠ [] := by
  obtain ⟨parent, -, h⟩ := Option.bind_eq_some_iff.mp h
  cases parent with
  | missing =>
    cases h
    simp [refused]
  | fault => cases h
  | inDir c name =>
    obtain ⟨⟨b, d⟩, -, h⟩ := Option.bind_eq_some_iff.mp h
    cases b <;> cases h <;> simp [refused]

/-- Every request is answered, a read with a reply that ends it. -/
theorem serve_replies (h : serve dev spawn s req = some (.replied r s')) :
    ∃ m ∈ r, req.type = 0 → m.type = 255 ∨ m.type = 101 := by
  have hother (hne : r ≠ []) (htype : req.type ≠ 0) :
      ∃ m ∈ r, req.type = 0 → m.type = 255 ∨ m.type = 101 := by
    obtain ⟨m, rest, rfl⟩ := List.exists_cons_of_ne_nil hne
    exact ⟨m, by simp, fun h0 => absurd h0 htype⟩
  unfold serve at h
  split at h
  case h_1 =>
    obtain ⟨out, hout, heq⟩ := Option.map_eq_some_iff.mp h
    cases heq
    obtain ⟨m, hm, hend⟩ := serveRead_end hout
    exact ⟨m, hm, fun _ => hend⟩
  case h_2 htype =>
    obtain ⟨out, hout, heq⟩ := Option.map_eq_some_iff.mp h
    cases heq
    exact hother (serveExec_ne_nil hout) (by omega)
  case h_3 htype =>
    dsimp only at h
    split at h
    · cases h
      exact hother (by simp [refused]) (by omega)
    · exact hother (inParent_ne_nil h) (by omega)
  case h_4 htype => exact hother (inParent_ne_nil h) (by omega)
  case h_5 htype => exact hother (inParent_ne_nil h) (by omega)
  case h_6 htype => exact hother (inParent_ne_nil h) (by omega)
  case h_7 htype _ _ _ _ _ =>
    cases h
    exact hother (by simp [refused]) htype

end Replies

end Mukrn.Fat32
