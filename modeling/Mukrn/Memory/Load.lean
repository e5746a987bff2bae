import Mukrn.Memory.Calls
import Mukrn.Memory.LowOpen

/-! Loading a program. The segments of a well-formed image are mapped to fresh frames, and its
bytes are copied to these frames only. -/
namespace Mukrn
open ByteMemory PageTable LinkedStack

/-- The pages of a segment. -/
def segmentCursor (m : Mem) (ph : ℕ) : List ℕ :=
  pageCursor (rangeStart (phVaddr m ph)) (rangeEnd (phVaddr m ph) (phMemsz m ph))

/-- The number of pages that header `i` asks for. -/
def segmentPages (m : Mem) (buf i : ℕ) : ℕ :=
  if phType m (phdrAddr m buf i) = ptLoad then (segmentCursor m (phdrAddr m buf i)).length else 0

def imagePages (m : Mem) (buf : ℕ) : ℕ :=
  ((List.range (elfPhnum m buf)).map (segmentPages m buf)).sum

/-- The program headers are in the first page, and every segment that is loaded is at least as
large in memory as in the file and lies in the lower half of the address space. -/
structure Loadable (m : Mem) (buf : ℕ) : Prop where
  headers : ∀ i < elfPhnum m buf, buf ≤ phdrAddr m buf i ∧ phdrAddr m buf i + 56 ≤ buf + 4096
  segments : ∀ i < elfPhnum m buf, phType m (phdrAddr m buf i) = ptLoad →
    phFilesz m (phdrAddr m buf i) ≤ phMemsz m (phdrAddr m buf i) ∧
      phVaddr m (phdrAddr m buf i) + phMemsz m (phdrAddr m buf i) + 4095 < 2 ^ 47

section Cursor

variable {start finish v : ℕ}

theorem mem_pageCursor (h : v ∈ pageCursor start finish) :
    start ≤ v ∧ v % 4096 = start % 4096 ∧ v < finish := by
  obtain ⟨i, hi, rfl⟩ := List.mem_map.mp h
  have hi := List.mem_range.mp hi
  omega

theorem mem_pageCursor_of (hs : start ≤ v) (hv : v % 4096 = start % 4096) (hf : v < finish) :
    v ∈ pageCursor start finish := by
  refine List.mem_map.mpr ⟨(v - start) / 4096, List.mem_range.mpr ?_, ?_⟩ <;> omega

theorem pageCursor_pairwise (start finish : ℕ) : (pageCursor start finish).Pairwise (· < ·) := by
  refine List.pairwise_map.mpr (List.pairwise_lt_range.imp fun h => ?_)
  omega

end Cursor

/-- The two memories have the same contents in one page. -/
def SamePage (page : ℕ) (m m' : Mem) : Prop := ∀ a, page ≤ a → a < page + 4096 → m' a = m a

section Header

variable {m m' : Mem} {buf ph : ℕ} (hm : SamePage buf m m')
include hm

private theorem load_page {a n : ℕ} (h1 : buf ≤ a) (h2 : a + n ≤ buf + 4096) :
    load m' a n = load m a n := load_congr fun i hi => hm _ (by omega) (by omega)

theorem elfPhnum_page : elfPhnum m' buf = elfPhnum m buf :=
  load_page hm (by omega) (by omega)

theorem phdrAddr_page (i : ℕ) : phdrAddr m' buf i = phdrAddr m buf i := by
  have h1 : elfPhoff m' buf = elfPhoff m buf := load_page hm (by omega) (by omega)
  have h2 : elfPhentsize m' buf = elfPhentsize m buf := load_page hm (by omega) (by omega)
  rw [phdrAddr, phdrAddr, h1, h2]

variable (h1 : buf ≤ ph) (h2 : ph + 56 ≤ buf + 4096)
include h1 h2

theorem phType_page : phType m' ph = phType m ph := load_page hm (by omega) (by omega)
theorem phFlags_page : phFlags m' ph = phFlags m ph := load_page hm (by omega) (by omega)
theorem phVaddr_page : phVaddr m' ph = phVaddr m ph := load_page hm (by omega) (by omega)
theorem phFilesz_page : phFilesz m' ph = phFilesz m ph := load_page hm (by omega) (by omega)
theorem phMemsz_page : phMemsz m' ph = phMemsz m ph := load_page hm (by omega) (by omega)

end Header

/-- A state of the loader under the new root `r`: the staged headers at `buf` are still those of
the memory `m`. -/
structure Loading (m : Mem) (buf r : ℕ) (use : ℕ → Use) (fl : List ℕ) (h : Machine) : Prop where
  owned : Owned use fl h
  root : h.pagingRoot = r
  table : use r = .table r []
  data : use buf = .data
  header : SamePage buf m h.mem

/-- The pages that the segment loop maps from header `i` on, with their frames. -/
def segmentMaps (buf : ℕ) : ℕ → ℕ → Machine → List (ℕ × ℕ)
  | 0, _, _ => []
  | fuel + 1, i, h =>
    if i < elfPhnum h.mem buf then
      let ph := phdrAddr h.mem buf i
      if phType h.mem ph ≠ ptLoad then segmentMaps buf fuel (i + 1) h
      else
        -- a well-formed file keeps the flags of its header meanwhile (`Loading.mapSegment`)
        let flags := segmentFlags (phFlags h.mem ph)
        let (ok, h') := mapSegment ph h (segmentCursor h.mem ph)
        let src := buf + phOffset h'.mem ph
        freshMaps flags h (segmentCursor h.mem ph) ++
          if ok then
            ((copySegment ph src (2 ^ 64) 0 h').map (segmentMaps buf fuel (i + 1))).getD []
          else []
    else []

/-- The pages of the loadable segments of an image. -/
def SegmentPage (m : Mem) (buf v : ℕ) : Prop :=
  ∃ j < elfPhnum m buf, phType m (phdrAddr m buf j) = ptLoad ∧
  v ∈ segmentCursor m (phdrAddr m buf j)

/-- The pages that `loadImage` maps, with their frames. -/
def imageMaps (buf top : ℕ) (h : Machine) : List (ℕ × ℕ) :=
  segmentMaps buf 65536 0 h ++
    match loadSegments buf 65536 0 h with
    | some (true, h) => freshMaps (pagePresent ||| pageWritable ||| pageUser) h (stackPages top)
    | _ => []

section

variable {m : Mem} {buf r : ℕ} {use : ℕ → Use} {fl frames vs : List ℕ} {h : Machine}

/-- Backing pages does not disturb the loader. -/
theorem Loading.backed {use' : ℕ → Use} {fl' : List ℕ} {h' : Machine} {ms : List (ℕ × ℕ)}
    (hl : Loading m buf r use fl h) (hb : Backed ms use fl h use' fl' h') :
    Loading m buf r use' fl' h' := by
  have hbuf := (hl.owned.page buf (by rw [hl.data]; exact nofun)).1
  refine ⟨hb.owned, hb.root.trans hl.root, hb.took.keeps_table hl.owned hl.table, ?_,
    fun a h1 h2 => ?_⟩
  · rw [hb.took.keeps hl.owned (by rw [hl.data]; exact nofun), hl.data]
  · rw [hb.frame buf hbuf (by rw [hl.data]; exact nofun) (by rw [hl.data]; exact nofun) a h1 h2]
    exact hl.header a h1 h2

theorem Loading.mapFresh_lowOpen {flags : ℕ} (hl : Loading m buf r use fl h) (hf : flags < 128)
    (hpf : present flags) (vs : List ℕ) (hlow : LowOpen h.mem r) :
    LowOpen (mapFresh flags h vs).2.mem r := by
  rw [← hl.root] at hlow ⊢
  exact Mukrn.mapFresh_lowOpen hl.owned (hl.root ▸ hl.table) hf hpf vs hlow

/-- A byte stored through a backed page reaches its frame and nothing else. -/
theorem Loading.write {a : ℕ} (hl : Loading m buf r use fl h) (hbuf : buf ∉ frames)
    (hback : ∀ v ∈ vs, BackedAt use frames h v) (ha : a < 2 ^ 47) (hv : a / 4096 * 4096 ∈ vs)
    (b : UInt8) : ∃ x, translate h a = some x ∧
      Loading m buf r use fl { h with mem := Function.update h.mem x b } ∧
      Populated [] use fl h use fl { h with mem := Function.update h.mem x b } ∧
      (LowOpen h.mem r → LowOpen (Function.update h.mem x b) r) ∧
      ∀ v ∈ vs, BackedAt use frames { h with mem := Function.update h.mem x b } v := by
  obtain ⟨f, hf, hdata, hwalk⟩ := hback _ hv
  have hr : use h.pagingRoot = .table h.pagingRoot [] := hl.root ▸ hl.table
  have hfp := (hl.owned.page f (by rw [hdata]; exact nofun)).1
  have hfb : f ≠ buf := fun he => hbuf (he ▸ hf)
  have hbp := (hl.owned.page buf (by rw [hl.data]; exact nofun)).1
  have hout (x : ℕ) (hx : x < f ∨ f + 4096 ≤ x) :
      Function.update h.mem (f + a % 4096) b x = h.mem x :=
    Function.update_of_ne (by omega) ..
  have hpop := Populated.write hl.owned hr hdata hout
  refine ⟨f + a % 4096, ?_, ⟨hpop.owned, hl.root, hl.table, hl.data, fun x h1 h2 => ?_⟩, hpop,
    fun hlow => hlow.of_sameOutside hl.owned hl.table (.one hfp hout) fun g hg r p => ?_,
    fun v hv => hpop.backedAt hl.owned hr (fun va _ => nofun) (hback v hv)⟩
  · rw [translate, canonical, decide_eq_true ha, Bool.true_or, if_pos rfl]
    exact hwalk a (trail_page (by omega) 4)
  · exact (hout x (by omega)).trans (hl.header x h1 h2)
  · rw [List.mem_singleton.mp hg, hdata]
    simp

/-- The byte loop of a segment runs to its end. -/
theorem copySegment_loading {ph : ℕ} (hl : Loading m buf r use fl h) (h1 : buf ≤ ph)
    (h2 : ph + 56 ≤ buf + 4096) (hsz : phFilesz m ph ≤ phMemsz m ph)
    (hend : phVaddr m ph + phMemsz m ph + 4095 < 2 ^ 47) (hbuf : buf ∉ frames)
    (hback : ∀ v ∈ segmentCursor m ph, BackedAt use frames h v) (src fuel j : ℕ) :
    ∃ h', copySegment ph src fuel j h = some h' ∧ Loading m buf r use fl h' ∧
      Populated [] use fl h use fl h' ∧ (LowOpen h.mem r → LowOpen h'.mem r) := by
  induction fuel generalizing h j with
  | zero => exact ⟨h, rfl, hl, .nil hl.owned, id⟩
  | succ fuel ih =>
    rw [copySegment, phFilesz_page hl.header h1 h2, phVaddr_page hl.header h1 h2]
    by_cases hj : j < phFilesz m ph
    · rw [if_pos hj]
      have hmod : (phVaddr m ph + j) % 2 ^ 64 = phVaddr m ph + j := Nat.mod_eq_of_lt (by omega)
      have hmem : (phVaddr m ph + j) / 4096 * 4096 ∈ segmentCursor m ph := by
        refine mem_pageCursor_of ?_ ?_ ?_ <;> simp only [rangeStart, rangeEnd] <;> omega
      obtain ⟨x, hx, hl', hpop, hlow, hback'⟩ :=
        hl.write hbuf hback (by omega) hmem (h.mem ((src + j) % 2 ^ 64))
      obtain ⟨h', hcopy, hl'', hpop', hlow'⟩ := ih hl' hback' (j + 1)
      rw [writeUser, hmod, hx]
      exact ⟨h', hcopy, hl'', hpop.append hl.owned hpop', fun h => hlow' (hlow h)⟩
    · rw [if_neg hj]
      exact ⟨h, rfl, hl, .nil hl.owned, id⟩

theorem segmentFlags_ok (phflags : ℕ) :
    segmentFlags phflags < 128 ∧ present (segmentFlags phflags) := by
  unfold segmentFlags
  split <;> decide

/-- New pages leave the staged header, so that all pages of a segment get the same flags. -/
theorem Loading.mapSegment {ph : ℕ} (hl : Loading m buf r use fl h) (h1 : buf ≤ ph)
    (h2 : ph + 56 ≤ buf + 4096) (vs : List ℕ) :
    mapSegment ph h vs = mapFresh (segmentFlags (phFlags m ph)) h vs := by
  induction vs generalizing use fl h with
  | nil => rfl
  | cons v vs ih =>
    cases fl with
    | nil => simp only [Mukrn.mapSegment, mapFresh, hl.owned.alloc_nil, if_true]
    | cons f fl =>
      obtain ⟨hf, hpf⟩ := segmentFlags_ok (phFlags m ph)
      obtain ⟨use', fl', hb, -⟩ := mapOne_spec (v := v) hl.owned (hl.root ▸ hl.table) hf hpf
      have hbuf := (hl.owned.page buf (by simp [hl.data])).1
      have hne : buf ≠ f := hl.owned.ne_head (by simp [hl.data])
      have hfp := hl.owned.head.2.1
      have hsame : SamePage buf m (h.take f).mem := fun a ha1 ha2 =>
        (h.take_outside (by omega)).trans (hl.header a ha1 ha2)
      simp only [Mukrn.mapSegment, mapFresh, hl.owned.alloc_eq, hl.owned.head.2.2.1.ne', if_false,
        phFlags_page hsame h1 h2]
      exact ih (hl.backed hb)

/-- The pages of one segment are backed by free frames. -/
theorem segment_backed {i : ℕ} (hm : Loadable m buf) (hl : Loading m buf r use fl h)
    (hi : i < elfPhnum m buf) (hload : phType m (phdrAddr m buf i) = ptLoad)
    (hroom : 4 * segmentPages m buf i ≤ fl.length) :
    ∃ h1 use' fl', mapSegment (phdrAddr m buf i) h (segmentCursor m (phdrAddr m buf i)) =
        (true, h1) ∧ Loading m buf r use' fl' h1 ∧ buf ∉ fl ∧
      Backed (freshMaps (segmentFlags (phFlags m (phdrAddr m buf i))) h
        (segmentCursor m (phdrAddr m buf i))) use fl h use' fl' h1 ∧
      ∀ v ∈ segmentCursor m (phdrAddr m buf i), BackedAt use' fl h1 v := by
  obtain ⟨hb1, hb2⟩ := hm.headers i hi
  obtain ⟨hsz, hend⟩ := hm.segments i hi hload
  obtain ⟨hf, hpf⟩ := segmentFlags_ok (phFlags m (phdrAddr m buf i))
  have hpages : segmentPages m buf i = (segmentCursor m (phdrAddr m buf i)).length := if_pos hload
  have hpage (v : ℕ) (hv : v ∈ segmentCursor m (phdrAddr m buf i)) :
      v % 4096 = 0 ∧ v < 2 ^ 48 := by
    obtain ⟨hge, hmod, hlt⟩ := mem_pageCursor hv
    simp only [rangeStart, rangeEnd] at hge hmod hlt
    omega
  have hbuf : buf ∉ fl := by
    intro hn
    have hfree := (hl.owned.free buf).mp hn
    rw [hl.data] at hfree
    cases hfree
  rw [hpages] at hroom
  rw [hl.mapSegment hb1 hb2]
  obtain ⟨hok, use', fl', hb, hback⟩ := mapFresh_backedAt hl.owned (hl.root ▸ hl.table) hf hpf
    (pageCursor_pairwise _ _) hpage hroom
  exact ⟨_, use', fl', Prod.ext hok rfl, hl.backed hb, hbuf, hb, hback⟩

/-- One loaded segment: its pages are backed and its bytes are copied. -/
theorem segment_loading {i : ℕ} (hm : Loadable m buf) (hl : Loading m buf r use fl h)
    (hi : i < elfPhnum m buf) (hload : phType m (phdrAddr m buf i) = ptLoad)
    (hroom : 4 * segmentPages m buf i ≤ fl.length) (fuel j : ℕ) :
    ∃ h1 h2 use' fl', mapSegment (phdrAddr m buf i) h (segmentCursor m (phdrAddr m buf i)) =
        (true, h1) ∧
      copySegment (phdrAddr m buf i) (buf + phOffset h1.mem (phdrAddr m buf i)) fuel j h1 =
        some h2 ∧
      Loading m buf r use' fl' h2 ∧
      fl.length ≤ fl'.length + 4 * segmentPages m buf i ∧
      Populated (freshMaps (segmentFlags (phFlags m (phdrAddr m buf i))) h
        (segmentCursor m (phdrAddr m buf i))) use fl h use' fl' h2 ∧
      (LowOpen h.mem r → LowOpen h2.mem r) := by
  obtain ⟨hb1, hb2⟩ := hm.headers i hi
  obtain ⟨hsz, hend⟩ := hm.segments i hi hload
  obtain ⟨hf, hpf⟩ := segmentFlags_ok (phFlags m (phdrAddr m buf i))
  have hpages : segmentPages m buf i = (segmentCursor m (phdrAddr m buf i)).length := if_pos hload
  obtain ⟨h1, use', fl', hmap, hl1, hbuf, hb, hback⟩ := segment_backed hm hl hi hload hroom
  rw [hpages] at hroom ⊢
  obtain ⟨h2, hcopy, hl2, hpop, hlow⟩ :=
    copySegment_loading hl1 hb1 hb2 hsz hend hbuf hback
      (buf + phOffset h1.mem (phdrAddr m buf i)) fuel j
  have hall := hb.toPopulated.append hl.owned hpop
  rw [List.append_nil] at hall
  have hlen := hall.took.length_le
  have hms := freshMaps_length (segmentFlags (phFlags m (phdrAddr m buf i))) h
    (segmentCursor m (phdrAddr m buf i))
  refine ⟨h1, h2, use', fl', hmap, hcopy, hl2, by omega, hall, fun h => hlow ?_⟩
  have hopen := hl.mapFresh_lowOpen hf hpf (segmentCursor m (phdrAddr m buf i)) h
  rwa [← hl.mapSegment hb1 hb2, hmap] at hopen

theorem range_drop {n i : ℕ} (hi : i < n) :
    (List.range n).drop i = i :: (List.range n).drop (i + 1) := by
  rw [List.drop_eq_getElem_cons (by simpa using hi), List.getElem_range]

/-- The segment loop from header `i` on runs to its end. -/
theorem loadSegments_loading (hm : Loadable m buf) (hl : Loading m buf r use fl h) {i : ℕ}
    (hroom : 4 * (((List.range (elfPhnum m buf)).drop i).map (segmentPages m buf)).sum ≤ fl.length)
    (fuel : ℕ) :
    ∃ h' use' fl', loadSegments buf fuel i h = some (true, h') ∧ Loading m buf r use' fl' h' ∧
      fl.length ≤ fl'.length +
        4 * (((List.range (elfPhnum m buf)).drop i).map (segmentPages m buf)).sum ∧
      Populated (segmentMaps buf fuel i h) use fl h use' fl' h' ∧
      (LowOpen h.mem r → LowOpen h'.mem r) ∧
      ∀ p ∈ segmentMaps buf fuel i h, SegmentPage m buf p.1 := by
  induction fuel generalizing use fl h i with
  | zero => exact ⟨h, use, fl, rfl, hl, Nat.le_add_right .., .nil hl.owned, id, nofun⟩
  | succ fuel ih =>
    rw [loadSegments, segmentMaps, elfPhnum_page hl.header, phdrAddr_page hl.header]
    by_cases hi : i < elfPhnum m buf
    · rw [range_drop hi, List.map_cons, List.sum_cons, Nat.mul_add] at hroom ⊢
      obtain ⟨hb1, hb2⟩ := hm.headers i hi
      simp only [if_pos hi, segmentCursor, phType_page hl.header hb1 hb2,
        phFlags_page hl.header hb1 hb2, phVaddr_page hl.header hb1 hb2, phMemsz_page hl.header hb1 hb2]
      by_cases hload : phType m (phdrAddr m buf i) = ptLoad
      · rw [if_neg (not_not.mpr hload), if_neg (not_not.mpr hload)]
        obtain ⟨h1, h2, use1, fl1, hmap, hcopy, hl1, hlen, hpop1, hlow1⟩ :=
          segment_loading hm hl hi hload (by omega) (2 ^ 64) 0
        obtain ⟨h3, use2, fl2, hloop, hl2, hlen2, hpop2, hlow2, hpages2⟩ :=
          ih hl1 (i := i + 1) (by omega)
        rw [segmentCursor] at hmap hpop1
        rw [hmap]
        simp only [if_true, hcopy, Option.bind_some, Option.map_some, Option.getD_some]
        refine ⟨h3, use2, fl2, hloop, hl2, by omega, hpop1.append hl.owned hpop2,
          fun h => hlow2 (hlow1 h), fun p hp => ?_⟩
        rcases List.mem_append.mp hp with hp | hp
        · exact ⟨i, hi, hload, freshMaps_page hp⟩
        · exact hpages2 p hp
      · rw [if_pos hload, if_pos hload]
        obtain ⟨h3, use2, fl2, hloop, hl2, hlen2, hpop2⟩ := ih hl (i := i + 1) (by omega)
        exact ⟨h3, use2, fl2, hloop, hl2, by omega, hpop2⟩
    · rw [if_neg hi, if_neg hi]
      exact ⟨h, use, fl, rfl, hl, Nat.le_add_right .., .nil hl.owned, id, nofun⟩

/-- Segments and stack are loaded when there are enough free pages. -/
theorem loadImage_loading (hm : Loadable m buf) (hl : Loading m buf r use fl h)
    (hroom : 4 * imagePages m buf + 16 ≤ fl.length) (top : ℕ) :
    ∃ h' use' fl', loadImage buf top h = some (true, h') ∧ Loading m buf r use' fl' h' ∧
      fl.length ≤ fl'.length + (4 * imagePages m buf + 16) ∧
      Populated (imageMaps buf top h) use fl h use' fl' h' ∧
      (LowOpen h.mem r → LowOpen h'.mem r) ∧
      ∀ p ∈ imageMaps buf top h, SegmentPage m buf p.1 ∨ p.1 ∈ stackPages top := by
  obtain ⟨h1, use1, fl1, hseg, hl1, hlen1, hpop1, hlow, hpages⟩ :=
    loadSegments_loading (i := 0) hm hl (show 4 * imagePages m buf ≤ fl.length by omega) 65536
  have hlen1 : fl.length ≤ fl1.length + 4 * imagePages m buf := hlen1
  obtain ⟨use2, fl2, hb, hok⟩ := mapFresh_backed hl1.owned (hl1.root ▸ hl1.table)
    (show pagePresent ||| pageWritable ||| pageUser < 128 by decide) (by decide) (stackPages top)
  have hstack : (stackPages top).length = 4 := by simp [stackPages]
  have hlen2 := hb.took.length_le
  have hms := freshMaps_length (pagePresent ||| pageWritable ||| pageUser) h1 (stackPages top)
  rw [imageMaps, hseg]
  refine ⟨_, use2, fl2, ?_, hl1.backed hb, by omega, hpop1.append hl.owned hb.toPopulated,
    fun h => hl1.mapFresh_lowOpen (by decide) (by decide) _ (hlow h), fun p hp => ?_⟩
  · rw [loadImage, hseg, Option.bind_some]
    exact congrArg some (Prod.ext (hok (by omega)) rfl)
  · rcases List.mem_append.mp hp with hp | hp
    · exact .inl (hpages p hp)
    · exact .inr (freshMaps_page hp)

end

/-- The address lies in one of the frames. -/
def InFrames (frames : List ℕ) (a : ℕ) : Prop := ∃ f ∈ frames, f ≤ a ∧ a < f + 4096

section Staging

variable {use : ℕ → Use} {fl pages : List ℕ} {h : Machine}

/-- The uses after pages have been given back. -/
def freed (use : ℕ → Use) (pages : List ℕ) (f : ℕ) : Use := if f ∈ pages then .free else use f

/-- Pages of user data are given back one after the other. -/
theorem pmmFreePages_owned (ho : Owned use fl h) (hp : ∀ f ∈ pages, use f = .data)
    (hnd : pages.Nodup) :
    Owned (freed use pages) (pages.reverse ++ fl) (pmmFreePages h pages) := by
  induction pages generalizing use fl h with
  | nil =>
    have huse : freed use [] = use := by
      funext g
      simp [freed]
    rw [huse]
    exact ho
  | cons f pages ih =>
    obtain ⟨hnot, hnd⟩ := List.nodup_cons.mp hnd
    have hu := hp f (by simp)
    have hpush := ho.push (f := f) (by rw [hu]; exact nofun) (by rw [hu]; exact id)
      (by rw [hu]; exact nofun)
    have hrest (g : ℕ) (hg : g ∈ pages) : Function.update use f .free g = .data := by
      have hne : g ≠ f := fun he => hnot (he ▸ hg)
      rw [Function.update_of_ne hne]
      exact hp g (by simp [hg])
    have huse : freed (Function.update use f .free) pages = freed use (f :: pages) := by
      funext g
      by_cases hne : g = f
      · simp [freed, hne]
      · simp [freed, hne]
    have hend := ih hpush hrest hnd
    rw [huse] at hend
    rw [List.reverse_cons, List.append_assoc]
    exact hend

theorem freed_keep {f : ℕ} (hp : ∀ f ∈ pages, use f = .data) (hf : use f ≠ .data) :
    freed use pages f = use f := if_neg fun hn => hf (hp f hn)

theorem pmmFreePages_sameOutside (h : Machine) (hp : ∀ f ∈ pages, f % 4096 = 0) :
    SameOutside pages h.mem (pmmFreePages h pages).mem := by
  induction pages generalizing h with
  | nil => exact fun _ _ => rfl
  | cons f pages ih =>
    have hone : SameOutside [f] h.mem (pmmFreePage h f).mem :=
      .one (hp f (by simp)) fun a ha => fill_outside (by omega)
    exact hone.trans (ih _ fun g hg => hp g (by simp [hg]))

/-- Staging takes `n` pages for data, or gives back all that it took. -/
theorem stagePages_owned (ho : Owned use fl h) (hp : ∀ f ∈ pages, use f = .data)
    (hnd : pages.Nodup) (n : ℕ) :
    (fl.length < n ∧ ∃ h' use', stagePages n h pages = (none, h') ∧
      Owned use' (pages ++ fl).reverse h' ∧ (∀ f, f ∉ pages → use' f = use f) ∧
      SameOutside (pages ++ fl) h.mem h'.mem) ∨
    ∃ h' taken use' fl', stagePages n h pages = (some (pages ++ taken), h') ∧
      taken.length = n ∧ fl = taken ++ fl' ∧ Owned use' fl' h' ∧
      (∀ f ∈ taken, use' f = .data) ∧ (∀ f, f ∉ taken → use' f = use f) ∧
      (pages ++ taken).Nodup ∧ SameOutside taken h.mem h'.mem := by
  induction n generalizing use fl pages h with
  | zero => exact .inr ⟨h, [], use, fl, by simp [stagePages], rfl, rfl, ho, by simp, fun _ _ => rfl,
      by simpa using hnd, fun _ _ => rfl⟩
  | succ n ih =>
    cases fl with
    | nil =>
      refine .inl ⟨by simp, pmmFreePages h pages, freed use pages, ?_, ?_,
        fun f hf => if_neg hf, ?_⟩
      · simp only [stagePages, ho.alloc_nil, if_true]
      · have hfree := pmmFreePages_owned ho hp hnd
        rwa [List.append_nil] at hfree ⊢
      · rw [List.append_nil]
        exact pmmFreePages_sameOutside h fun f hf => (ho.page f (by simp [hp f hf])).1
    | cons f fl =>
      obtain ⟨hfree, hf0, hpos, -⟩ := ho.head
      have hstage : stagePages (n + 1) h pages = stagePages n (h.take f) (pages ++ [f]) := by
        simp only [stagePages, ho.alloc_eq, hpos.ne', if_false]
      have hfp : f ∉ pages := by
        intro hn
        rw [hp f hn] at hfree
        cases hfree
      have hp' (g : ℕ) (hg : g ∈ pages ++ [f]) : Function.update use f .data g = .data := by
        by_cases he : g = f
        · rw [he, Function.update_self]
        · rw [Function.update_of_ne he]
          exact hp g ((List.mem_append.mp hg).resolve_right (by simpa using he))
      have hnd' : (pages ++ [f]).Nodup := by
        rw [List.nodup_append]
        exact ⟨hnd, List.nodup_singleton f, fun a ha b hb => by
          rw [List.mem_singleton.mp hb]
          exact fun he => hfp (he ▸ ha)⟩
      have hone : SameOutside [f] h.mem (h.take f).mem := .one hf0 fun a ha => h.take_outside ha
      rw [hstage]
      rcases ih (ho.alloc (u := .data) (by simp) (by simp) (by simp)) hp' hnd' with
        ⟨hlen, h', use', hst, ho', hkeep, hout⟩ |
        ⟨h', taken, use', fl', hst, hlen, hfl, ho', hd, hk, hn, hout⟩
      · rw [List.append_assoc, List.singleton_append] at ho' hout
        refine .inl ⟨by simpa using hlen, h', use', hst, ho', fun g hg => ?_,
          (hone.trans hout).mono fun g hg => ?_⟩
        · by_cases hne : g = f
          · rw [hne, hfree]
            exact (ho'.free f).mp (by simp)
          · rw [hkeep g (by simp [hg, hne]), Function.update_of_ne hne]
        · rcases List.mem_append.mp hg with hg | hg
          · rw [List.mem_singleton.mp hg]
            simp
          · exact hg
      · rw [List.append_assoc] at hst hn
        refine .inr ⟨h', f :: taken, use', fl',
          hst, by rw [List.length_cons, hlen], by rw [hfl]; rfl,
          ho', fun g hg => ?_, fun g hg => ?_, hn, hone.trans hout⟩
        · by_cases hgt : g ∈ taken
          · exact hd g hgt
          · obtain rfl := (List.mem_cons.mp hg).resolve_right hgt
            rw [hk g hgt, Function.update_self]
        · obtain ⟨hne, hgt⟩ := not_or.mp (mt List.mem_cons.mpr hg)
          rw [hk g hgt, Function.update_of_ne hne]

/-- The copy loop writes the bytes of the staging buffer and nothing else. -/
theorem stageCopy_spec {binary buf n i : ℕ} {h' : Machine}
    (hc : stageCopy binary buf n i h = some h') :
    h' = { h with mem := h'.mem } ∧ ∀ a, a < buf + i ∨ buf + i + n ≤ a → h'.mem a = h.mem a := by
  induction n generalizing h i with
  | zero =>
    obtain rfl := Option.some.inj hc
    exact ⟨rfl, fun _ _ => rfl⟩
  | succ n ih =>
    obtain ⟨b, -, hc⟩ := Option.bind_eq_some_iff.mp hc
    obtain ⟨he, hout⟩ := ih hc
    refine ⟨he, fun a ha => ?_⟩
    rw [hout a (by omega)]
    exact Function.update_of_ne (by omega) ..

/-- A staging buffer that lies within its pages. -/
theorem stageCopy_sameOutside {binary buf n : ℕ} {h' : Machine}
    (hfit : ∀ i < n, (buf + i) / 4096 * 4096 ∈ pages) (hc : stageCopy binary buf n 0 h = some h') :
    SameOutside pages h.mem h'.mem := by
  intro a ha
  refine (stageCopy_spec hc).2 a ?_
  by_contra hn
  refine ha ?_
  have hfit := hfit (a - buf) (by omega)
  rwa [show buf + (a - buf) = a by omega] at hfit

/-- The copy succeeds when the source can be read whatever the staging pages hold. -/
theorem stageCopy_reads {binary buf n : ℕ} {src : ℕ → ℕ}
    (hfit : ∀ i < n, (buf + i) / 4096 * 4096 ∈ pages)
    (hsrc : ∀ i < n, src i / 4096 * 4096 ∉ pages)
    (hread : ∀ m, SameOutside pages h.mem m → ∀ i < n,
      translate { h with mem := m } ((binary + i) % 2 ^ 64) = some (src i)) :
    ∃ h', stageCopy binary buf n 0 h = some h' ∧ ∀ i < n, h'.mem (buf + i) = h.mem (src i) := by
  have hloop (k i : ℕ) (hk : i + k = n) (m : Mem) (hm : SameOutside pages h.mem m)
      (hdone : ∀ j < i, m (buf + j) = h.mem (src j)) :
      ∃ h', stageCopy binary buf k i { h with mem := m } = some h' ∧
        ∀ j < n, h'.mem (buf + j) = h.mem (src j) := by
    induction k generalizing i m with
    | zero => exact ⟨_, rfl, fun j hj => hdone j (by omega)⟩
    | succ k ih =>
      have hb : readUser { h with mem := m } binary i = some (h.mem (src i)) := by
        rw [readUser, hread m hm i (by omega), Option.map_some]
        exact congrArg some (hm _ (hsrc i (by omega)))
      rw [stageCopy, hb, Option.bind_some]
      refine ih (i + 1) (by omega) _ (fun a ha => ?_) fun j hj => ?_
      · have hne : a ≠ buf + i := fun he => ha (he ▸ hfit i (by omega))
        exact (Function.update_of_ne hne ..).trans (hm a ha)
      · by_cases hji : j = i
        · rw [hji, Function.update_self]
        · exact (Function.update_of_ne (by omega) ..).trans (hdone j (by omega))
  exact hloop n 0 (by omega) h.mem (fun _ _ => rfl) fun j hj => absurd hj (Nat.not_lt_zero j)

end Staging

section Create

variable {use : ℕ → Use} {fl pages : List ℕ} {s : Kernel} {h : Machine} {buf wantPid : ℕ}

theorem Safe.freePages (hs : Safe use fl { s with machine := h }) (hp : ∀ f ∈ pages, use f = .data)
    (hnd : pages.Nodup) :
    Safe (freed use pages) (pages.reverse ++ fl) { s with machine := pmmFreePages h pages } :=
  hs.keepsUses (pmmFreePages_owned hs.owned hp hnd) fun _ _ hf => freed_keep hp hf

/-- An address space that is a copy of the template with the given pages mapped. -/
structure NewSpace (ms : List (ℕ × ℕ)) (m : Mem) (r : ℕ) : Prop where
  target : ∀ ok, Access ok → ∀ va pa, walk ok m va 3 r = some pa → templateWalk ok va = some pa ∨
    ∃ p ∈ ms, Touches p.1 p.2 va ∧ pa = mappedTo p.1 p.2 va
  kept : ∀ ok, Access ok → ∀ va, ¬ TouchedBy ms va → walk ok m va 3 r = templateWalk ok va

theorem NewSpace.congr {ms : List (ℕ × ℕ)} {m m' : Mem} {r : ℕ} {sh : Shape}
    (hn : NewSpace ms m r) (hr : sh r = some (r, []))
    (hw : WalksAgree sh (fun _ _ => False) m m') : NewSpace ms m' r := by
  have hsame (ok : ℕ → Bool) (ha : Access ok) (va : ℕ) := hw ok ha r hr va id
  refine ⟨fun ok ha va pa hwalk => hn.target ok ha va pa ?_, fun ok ha va hva => ?_⟩
  · rwa [hsame ok ha va] at hwalk
  · rw [hsame ok ha va]
    exact hn.kept ok ha va hva

theorem NewSpace.populated {ms : List (ℕ × ℕ)} {use' : ℕ → Use} {fl' : List ℕ} {h' : Machine}
    (hn : NewSpace [] h.mem h.pagingRoot) (hr : use h.pagingRoot = .table h.pagingRoot [])
    (hb : Populated ms use fl h use' fl' h') : NewSpace ms h'.mem h.pagingRoot := by
  refine ⟨fun ok ha va pa hw => ?_, fun ok ha va hva => ?_⟩
  · refine (hb.target ok ha va pa hw).imp_left fun hw => ?_
    rcases hn.target ok ha va pa hw with hw | ⟨p, hp, -⟩
    · exact hw
    · cases hp
  · rw [hb.walks ok ha _ (shape_eq_some.mpr hr) va fun ht => hva ht.2]
    exact hn.kept ok ha va nofun

/-- The new address space before anything is loaded into it. Pages of user data are as before. -/
theorem loading_start {k : ℕ} {fl1 : List ℕ} (ho : Owned use (k :: fl1) h)
    (hroom : 3 ≤ fl1.length) (slot : ℕ) :
    ∃ r hc use' fl', pagingCloneKernel (h.take k) = (r, hc) ∧ r ≠ 0 ∧
      fl1.length = fl'.length + 3 ∧ Owned use' fl' (pagingSwitch hc r) ∧ use' r = .table r [] ∧
      (∀ g, use g = .data → use' g = .data ∧ SamePage g h.mem (pagingSwitch hc r).mem) ∧
      Took (fun u => u = .stack slot ∨ u.IsTable r) 4 use (k :: fl1) use' fl' ∧
      use' k = .stack slot ∧ use r = .free ∧
      WalksAgree (shape use) (fun _ _ => False) h.mem (pagingSwitch hc r).mem ∧
      NewSpace [] (pagingSwitch hc r).mem r ∧
      KeepsUnused use h.mem (pagingSwitch hc r).mem ∧ LowOpen (pagingSwitch hc r).mem r := by
  have ho1 := ho.alloc (u := .stack slot) nofun nofun nofun
  have hku : Function.update use k (.stack slot) k = .stack slot := Function.update_self ..
  obtain ⟨hkfree, hkp, -⟩ := ho.head
  have hspec := pagingCloneKernel_spec ho1
  have hcopied := pagingCloneKernel_copied ho1
  generalize pagingCloneKernel (h.take k) = x at hspec hcopied ⊢
  rcases hspec with ⟨hlt, -⟩ | ⟨r, use', fl', hlen, hr, hr0, hmem, htab, ho2, ht, hu, hwalk⟩
  · omega
  have ht1 : Took (fun u => u = .stack slot ∨ u.IsTable r) 1 use (k :: fl1) _ fl1 := .one (.inl rfl)
  have hr1 := (ho1.free r).mp hmem
  have htake : SameOutside [k] h.mem (h.take k).mem := .one hkp fun a ha => h.take_outside ha
  have hw1 : WalksAgree (shape use) (fun _ _ => False) h.mem (h.take k).mem := by
    refine ho.walks_sameOutside htake (fun f hf r p => ?_) _
    rw [List.mem_singleton.mp hf, hkfree]
    exact nofun
  refine ⟨r, _, use', fl', Prod.ext hr rfl, hr0, hlen, ho2.switch r, htab, fun g hg => ?_,
    ht1.trans (ht.mono le_rfl fun _ hu => .inr hu), ?_,
    (ho.free r).mp (List.mem_cons_of_mem _ hmem),
    hw1.trans (hu.walksAgree ho1 (by rw [hr1]; exact nofun) _) fun r' hr' => ?_,
    ⟨fun ok ha va pa hw => ?_, fun ok ha va _ => hwalk ok ha va⟩,
    (htake.keepsUnused fun f hf => ?_).trans (ht1.keeps_none ho) hu.keepsUnused, ?_⟩
  · have hgk : g ≠ k := ho.ne_head (by rw [hg]; exact nofun)
    have hgp := (ho.page g (by rw [hg]; exact nofun)).1
    have hg1 : Function.update use k (.stack slot) g = .data := by
      rw [Function.update_of_ne hgk, hg]
    refine ⟨by rw [ht.keeps ho1 (by rw [hg1]; exact nofun), hg1], fun a h1 h2 => ?_⟩
    have hclone := hu g hgp (by rw [hg1]; exact nofun) (by rw [hg1]; exact nofun) a h1 h2
    rw [pagingSwitch_mem, hclone, h.take_outside (by omega)]
  · rw [ht.keeps ho1 (by rw [hku]; exact nofun), hku]
  · exact shape_eq_some.mpr (ht1.keeps_table ho (shape_eq_some.mp hr'))
  · exact .inl ((hwalk ok ha va).symm.trans hw)
  · rw [List.mem_singleton.mp hf, hkfree]
    exact nofun
  · rw [hr] at hcopied
    obtain ⟨f2, f3, hc⟩ := hcopied hr0
    exact hc.lowOpen

/-- The number of code pages recorded for an image that ends at `top`. -/
def elfCodePages (top : ℕ) : ℕ := (top + 2 ^ 64 - 0x400000 + 4095) % 2 ^ 64 / 4096

/-- The root of the address space that `createStaged` builds and the pages mapped in it. -/
def stagedMaps (s : Kernel) (h : Machine) (buf wantPid : ℕ) : ℕ × List (ℕ × ℕ) :=
  if load h.mem buf 4 ≠ elfMagic ∨ maxTasks ≤ s.numTasks then (0, [])
  else
    let (kstack, h') := pmmAllocPage h
    if kstack = 0 ∨ 0 < wantPid ∧ (s.findLive wantPid).isSome then (0, [])
    else
      let (pml4, h') := pagingCloneKernel h'
      if pml4 = 0 then (0, [])
      else
        (pml4, imageMaps buf ((maxVaddr h.mem buf + 0x20000) % 2 ^ 64) (pagingSwitch h' pml4))

/-- The two ends of a creation that does not run out of pages: it is refused, or a task with an
address space of its own is published in the first free slot. -/
inductive Publication (s : Kernel) (h : Machine) (buf wantPid : ℕ) (use' : ℕ → Use)
    (fl : List ℕ) : ℤ × Kernel → Prop
  | refused (h' : Machine) (hr : load h.mem buf 4 ≠ elfMagic ∨ maxTasks ≤ s.numTasks ∨
      0 < wantPid ∧ (s.findLive wantPid).isSome) :
      Publication s h buf wantPid use' fl (-1, { s with machine := h' })
  | added {h' : Machine} {kstack pml4 : ℕ} {ms : List (ℕ × ℕ)}
      (hm : stagedMaps s h buf wantPid = (pml4, ms)) (hn : NewSpace ms h'.mem pml4)
      (hg : ∀ p ∈ ms, p.2 ∈ fl ∧ use' p.2 = .data) (hf : pml4 ∈ fl)
      (hv : ∀ p ∈ ms, SegmentPage h.mem buf p.1 ∨
        p.1 ∈ stackPages ((maxVaddr h.mem buf + 0x20000) % 2 ^ 64)) :
      Publication s h buf wantPid use' fl
        (addTask s h' none wantPid kstack pml4 0x400000 (elfCodePages (maxVaddr h.mem buf)))

/-- The first gigabyte of an added task's address space is open to user mode. -/
def OpensNew (s s' : Kernel) : Prop :=
  ∀ i, s.numTasks ≤ i → i < s'.numTasks → LowOpen s'.machine.mem (s'.tasks i).pml4Phys

theorem OpensNew.refused (s : Kernel) (h : Machine) : OpensNew s { s with machine := h } :=
  fun _ h1 h2 => absurd h2 (Nat.not_lt.mpr h1)

theorem OpensNew.added (s : Kernel) {h : Machine} {wantPid kstack pml4 loadAddr codePages : ℕ}
    (hlow : LowOpen h.mem pml4) :
    OpensNew s (addTask s h none wantPid kstack pml4 loadAddr codePages).2 := by
  intro i h1 h2
  obtain rfl : i = s.numTasks := Nat.le_antisymm (Nat.lt_succ_iff.mp h2) h1
  simpa [addTask, Kernel.setTask, newTask, ipcInitTask] using hlow

/-- The address spaces that exist keep their translations, user data stays where it is, and unused
pages are left alone. -/
structure Preserved (kept : ℕ → Prop) (use use' : ℕ → Use) (m m' : Mem) : Prop where
  data : ∀ f, use f = .data → kept f → use' f = .data
  walks : WalksAgree (shape use) (fun _ _ => False) m m'
  unused : KeepsUnused use m m'
  idle : ∀ f, use f = .none → use' f = .none

theorem Preserved.refl (kept : ℕ → Prop) (use : ℕ → Use) (m : Mem) : Preserved kept use use m m :=
  ⟨fun _ hf _ => hf, fun _ _ _ _ _ _ => rfl, .refl _ _, fun _ hf => hf⟩

/-- Giving back staging pages, after a change to them and to a free page. -/
private theorem Preserved.freePages {use' : ℕ → Use} {h' : Machine} {k : ℕ} (ho : Owned use fl h)
    (hp : ∀ f ∈ pages, use f = .data) (hk : use k = .free)
    (hout : SameOutside [k] h.mem h'.mem)
    (hu : ∀ f, use f = .data ∨ use f = .none → f ∉ pages → use' f = use f) :
    Preserved (· ∉ pages) use use' h.mem (pmmFreePages h' pages).mem := by
  have hall : SameOutside ([k] ++ pages) h.mem (pmmFreePages h' pages).mem :=
    hout.trans (pmmFreePages_sameOutside h' fun f hf =>
      (ho.page f (by rw [hp f hf]; exact nofun)).1)
  have huse (f : ℕ) (hf : f ∈ [k] ++ pages) : use f = .free ∨ use f = .data := by
    rcases List.mem_append.mp hf with hf | hf
    · rw [List.mem_singleton.mp hf]
      exact .inl hk
    · exact .inr (hp f hf)
  refine ⟨fun f hf hfp => (hu f (.inl hf) hfp).trans hf,
    ho.walks_sameOutside hall (fun f hf r p => ?_) _, hall.keepsUnused fun f hf => ?_,
    fun f hf => (hu f (.inr hf) fun hn => ?_).trans hf⟩
  · rcases huse f hf with h | h <;> rw [h] <;> exact nofun
  · rcases huse f hf with h | h <;> rw [h] <;> exact nofun
  · rw [hp f hn] at hf
    cases hf

/-- The machine after a successful load: the old root is active, the staging pages are free and
the kernel stack holds the first frame. -/
def settle (h : Machine) (root : ℕ) (pages : List ℕ) (kstack : ℕ) (frame : Registers) :
    Machine :=
  let h := pmmFreePages (pagingSwitch h root) pages
  { h with mem := storeFrame h.mem kstack frame }

/-- Only the staging pages and the kernel stack are written. -/
theorem settle_sameOutside {k i : ℕ} (ho : Owned use fl h) (hp : ∀ f ∈ pages, use f = .data)
    (hk : use k = .stack i) (root : ℕ) (frame : Registers) :
    SameOutside (pages ++ [k]) h.mem (settle h root pages k frame).mem := by
  have hk0 := (ho.page k (by rw [hk]; exact nofun)).1
  have hout : SameOutside pages h.mem (pmmFreePages (pagingSwitch h root) pages).mem :=
    pmmFreePages_sameOutside (pagingSwitch h root)
      fun f hf => (ho.page f (by rw [hp f hf]; exact nofun)).1
  have hframe : SameOutside [k] (pmmFreePages (pagingSwitch h root) pages).mem
      (storeFrame (pmmFreePages (pagingSwitch h root) pages).mem k frame) :=
    .one hk0 fun a ha => storeWords_outside (by omega)
  exact hout.trans hframe

theorem settle_owned {k i : ℕ} (ho : Owned use fl h) (hp : ∀ f ∈ pages, use f = .data)
    (hnd : pages.Nodup) (hk : use k = .stack i) (root : ℕ) (frame : Registers) :
    Owned (freed use pages) (pages.reverse ++ fl) (settle h root pages k frame) ∧
      WalksAgree (shape use) (fun _ _ => False) h.mem (settle h root pages k frame).mem ∧
      KeepsUnused use h.mem (settle h root pages k frame).mem ∧
      ∀ {r}, use r = .table r [] → LowOpen h.mem r →
        LowOpen (settle h root pages k frame).mem r := by
  have hk0 := (ho.page k (by rw [hk]; exact nofun)).1
  have hk4 : freed use pages k = .stack i := by
    rw [freed_keep hp (by rw [hk]; exact nofun), hk]
  have hfreed := pmmFreePages_owned (ho.switch root) hp hnd
  have hout := settle_sameOutside ho hp hk root frame
  have huse (f : ℕ) (hf : f ∈ pages ++ [k]) : use f = .data ∨ use f = .stack i := by
    rcases List.mem_append.mp hf with hf | hf
    · exact .inl (hp f hf)
    · rw [List.mem_singleton.mp hf]
      exact .inr hk
  have htable (f : ℕ) (hf : f ∈ pages ++ [k]) (r : ℕ) (p : List ℕ) : use f ≠ .table r p := by
    rcases huse f hf with h | h <;> rw [h] <;> simp
  refine ⟨hfreed.storeFrame hk0 (by rw [hk4]; exact id) frame,
    ho.walks_sameOutside hout htable _, hout.keepsUnused fun f hf => ?_,
    fun hr hlow => hlow.of_sameOutside ho hr hout htable⟩
  rcases huse f hf with h | h <;> rw [h] <;> simp

theorem createStaged_eq {k r : ℕ} {hk hc h3 : Machine} (pages : List ℕ)
    (hmagic : load h.mem buf 4 = elfMagic) (hn : s.numTasks < maxTasks)
    (hlive : ¬ (0 < wantPid ∧ (s.findLive wantPid).isSome)) (hreuse : findReuse s wantPid = none)
    (ha : pmmAllocPage h = (k, hk)) (hk0 : k ≠ 0) (hclone : pagingCloneKernel hk = (r, hc))
    (hr0 : r ≠ 0) (himg : loadImage buf ((maxVaddr h.mem buf + 0x20000) % 2 ^ 64)
      (pagingSwitch hc r) = some (true, h3)) :
    createStaged s h buf pages wantPid = some (addTask s
      (settle h3 hc.pagingRoot pages k (.initial
        (elfEntry (pmmFreePages (pagingSwitch h3 hc.pagingRoot) pages).mem buf)
        ((maxVaddr h.mem buf + 0x20000) % 2 ^ 64) 0)) none wantPid k r 0x400000
      (elfCodePages (maxVaddr h.mem buf))) ∧
    stagedMaps s h buf wantPid = (r, imageMaps buf ((maxVaddr h.mem buf + 0x20000) % 2 ^ 64)
      (pagingSwitch hc r)) := by
  have hn : ¬ maxTasks ≤ s.numTasks := Nat.not_le.mpr hn
  constructor
  · simp only [createStaged, hmagic, ne_eq, not_true_eq_false, if_false, hn, ha, hk0, hlive, hclone,
      hr0, himg, hreuse, Option.map_some, if_true]
    rfl
  · simp only [stagedMaps, hmagic, ne_eq, not_true_eq_false, hn, or_self, if_false, ha, hk0, hlive,
      hclone, hr0]

/-- The refusals that come before anything is built. -/
private theorem createStaged_refused {k : ℕ} {fl1 : List ℕ}
    (hs : Safe use (k :: fl1) { s with machine := h }) (hp : ∀ f ∈ pages, use f = .data)
    (hnd : pages.Nodup) (hr : load h.mem buf 4 ≠ elfMagic ∨ maxTasks ≤ s.numTasks ∨
      0 < wantPid ∧ (s.findLive wantPid).isSome) :
    ∃ h' use', createStaged s h buf pages wantPid = some (-1, { s with machine := h' }) ∧
      Safe use' (pages.reverse ++ k :: fl1) { s with machine := h' } ∧
      Preserved (· ∉ pages) use use' h.mem h'.mem := by
  have ho : Owned use (k :: fl1) h := hs.owned
  obtain ⟨hfree, hk0, hkpos, -⟩ := ho.head
  by_cases hearly : load h.mem buf 4 ≠ elfMagic ∨ maxTasks ≤ s.numTasks
  · refine ⟨pmmFreePages h pages, freed use pages, ?_, hs.freePages hp hnd,
      Preserved.freePages ho hp hfree (fun _ _ => rfl) fun f hf hfp => ?_⟩
    · unfold createStaged
      rcases hearly with hm | hn
      · simp only [if_pos hm]
      · simp only [if_pos hn, ite_self]
    · rw [freed, if_neg hfp]
  · obtain ⟨hm, hn⟩ := not_or.mp hearly
    have hlive := (hr.resolve_left hm).resolve_left hn
    have hku : Function.update use k (.stack s.numTasks) k = .stack s.numTasks :=
      Function.update_self ..
    have hpush := (ho.alloc (u := .stack s.numTasks) nofun nofun nofun).push (f := k)
      (by rw [hku]; exact nofun) (by rw [hku]; exact id) (by rw [hku]; exact nofun)
    rw [Function.update_idem] at hpush
    have hkeep (f : ℕ) (hf : use f ≠ .free) : Function.update use k .free f = use f := by
      have hne : f ≠ k := ho.ne_head hf
      rw [Function.update_of_ne hne]
    have hs1 : Safe _ _ { s with machine := pmmFreePage (h.take k) k } :=
      hs.keepsUses hpush fun f hf _ => hkeep f hf
    have hp1 (f : ℕ) (hf : f ∈ pages) : Function.update use k .free f = .data := by
      rw [hkeep f (by rw [hp f hf]; exact nofun), hp f hf]
    have hout : SameOutside [k] h.mem (pmmFreePage (h.take k) k).mem := by
      refine .one hk0 fun a ha => ?_
      have hstore : (pmmFreePage (h.take k) k).mem a = (h.take k).mem a := fill_outside (by omega)
      rw [hstore, h.take_outside ha]
    refine ⟨_, _, ?_, hs1.freePages hp1 hnd, Preserved.freePages ho hp hfree hout
      fun f hf hfp => ?_⟩
    · simp only [createStaged, if_neg hm, if_neg hn, ho.alloc_eq, hkpos.ne', if_false, if_pos hlive]
    · rw [freed, if_neg hfp, hkeep f (by rcases hf with hf | hf <;> rw [hf] <;> exact nofun)]

/-- Creating a task from a staged image that is well formed, with enough free pages. -/
theorem createStaged_safe (hs : Safe use fl { s with machine := h })
    (hp : ∀ f ∈ pages, use f = .data) (hnd : pages.Nodup) (hbuf : buf ∈ pages)
    (hm : Loadable h.mem buf) (hroom : 20 + 4 * imagePages h.mem buf ≤ fl.length)
    (hreuse : findReuse s wantPid = none) :
    ∃ res use' fl', createStaged s h buf pages wantPid = some res ∧ Safe use' fl' res.2 ∧
      Preserved (· ∉ pages) use use' h.mem res.2.machine.mem ∧
      fl.length + pages.length ≤ fl'.length + (20 + 4 * imagePages h.mem buf) ∧
      Publication s h buf wantPid use' fl res ∧ OpensNew s res.2 ∧ pages.reverse <+: fl' := by
  have ho : Owned use fl h := hs.owned
  cases fl with
  | nil =>
    rw [List.length_nil] at hroom
    omega
  | cons k fl1 =>
  by_cases hr : load h.mem buf 4 ≠ elfMagic ∨ maxTasks ≤ s.numTasks ∨
      0 < wantPid ∧ (s.findLive wantPid).isSome
  · obtain ⟨h', use', hc, hs', hpres⟩ := createStaged_refused hs hp hnd hr
    refine ⟨_, use', _, hc, hs', hpres, ?_, .refused h' hr, .refused s h', _, rfl⟩
    rw [List.length_append, List.length_reverse]
    omega
  obtain ⟨hmagic, hr⟩ := not_or.mp hr
  obtain ⟨hn, hlive⟩ := not_or.mp hr
  rw [List.length_cons] at hroom
  obtain ⟨r, hcl, use2, fl2, hclone, hr0, hlen2, ho2, hr2, hd2, ht, hk2, hrfree, hw1, hn1, hq1,
    hopen⟩ := loading_start ho (by omega) s.numTasks
  obtain ⟨hbuf2, hsame2⟩ := hd2 buf (hp buf hbuf)
  have hl : Loading h.mem buf r use2 fl2 (pagingSwitch hcl r) := ⟨ho2, rfl, hr2, hbuf2, hsame2⟩
  obtain ⟨h3, use3, fl3, himg, hl3, hlen3, hpop, hlow, hpages⟩ := loadImage_loading hm hl
    (by omega) ((maxVaddr h.mem buf + 0x20000) % 2 ^ 64)
  have hp2 (f : ℕ) (hf : f ∈ pages) : use2 f = .data := (hd2 f (hp f hf)).1
  have hp3 (f : ℕ) (hf : f ∈ pages) : use3 f = .data := by
    rw [hpop.took.keeps hl.owned (by rw [hp2 f hf]; exact nofun), hp2 f hf]
  have hk3 : use3 k = .stack s.numTasks := by
    rw [hpop.took.keeps hl.owned (by rw [hk2]; exact nofun), hk2]
  obtain ⟨hc, hmaps⟩ := createStaged_eq pages (not_not.mp hmagic) (Nat.not_le.mp hn) hlive
    hreuse ho.alloc_eq ho.head.2.2.1.ne' hclone hr0 himg
  generalize Registers.initial (elfEntry _ buf) _ 0 = frame at hc
  obtain ⟨ho4, hend, hq4, hlow4⟩ := settle_owned hl3.owned hp3 hnd hk3 hcl.pagingRoot frame
  have hk4 : freed use3 pages k = .stack s.numTasks := by
    rw [freed_keep hp3 (by rw [hk3]; exact nofun), hk3]
  have hr4 : freed use3 pages r = .table r [] := by
    rw [freed_keep hp3 (by rw [hl3.table]; exact nofun), hl3.table]
  have hs4 := hs.keepsUses ho4
    (((ht.keepsUses ho).trans (hpop.took.keepsUses hl.owned)).trans fun f _ hf => freed_keep hp3 hf)
  have hspace : NewSpace _ h3.mem r := hn1.populated (h := pagingSwitch hcl r) hl.table hpop
  have hspace := hspace.congr (shape_eq_some.mpr hl3.table) hend
  have hq3 := hq1.trans (ht.keeps_none ho) hpop.unused
  have hnone (f : ℕ) (hf : use f = .none) : use3 f = .none :=
    hpop.took.keeps_none hl.owned f (ht.keeps_none ho f hf)
  refine ⟨_, _, _, hc, hs4.addTask hk4 hr4, ⟨fun f hf hfp => ?_, fun ok ha r0 hr0 va _ => ?_,
    hq3.trans hnone hq4, fun f hf => (freed_keep hp3 (by rw [hnone f hf]; exact nofun)).trans
      (hnone f hf)⟩, ?_,
    .added hmaps hspace (fun p hpm => ?_) ((ho.free r).mpr hrfree) (hpages ·),
    .added s (hlow4 hl3.table (hlow hopen)), _, rfl⟩
  · have hf2 : use2 f = .data := (hd2 f hf).1
    rw [freed, if_neg hfp, hpop.took.keeps hl.owned (by rw [hf2]; exact nofun), hf2]
  · have hu0 := shape_eq_some.mp hr0
    have hne : r0 ≠ r := by
      rintro rfl
      rw [hrfree] at hu0
      cases hu0
    have h2 := ht.keeps_table ho hu0
    have h3 := hpop.took.keeps_table hl.owned h2
    have hload := hpop.walks ok ha r0 (shape_eq_some.mpr h2) va fun hn => hne hn.1
    exact (hend ok ha r0 (shape_eq_some.mpr h3) va id).trans
      (hload.trans (hw1 ok ha r0 hr0 va id))
  · rw [List.length_cons, List.length_append, List.length_reverse]
    omega
  · obtain ⟨hp2m, hd3⟩ := hpop.given p hpm
    have hfree2 := (hl.owned.free p.2).mp hp2m
    have hnot : p.2 ∉ pages := by
      intro hn
      rw [hp2 _ hn] at hfree2
      cases hfree2
    exact ⟨ht.subset hp2m, by rw [freed, if_neg hnot, hd3]⟩

/-- At least `n` pages are on the free list. -/
def HasFree (h : Machine) (n : ℕ) : Prop :=
  ∃ fl, Chain (load64 h.mem) 0 h.freeStack fl ∧ n ≤ fl.length

/-- What the loader relies on in a binary: its copy lies within the staging pages and is well
formed, and there are enough free pages to load it. -/
def GoodImage (s : Kernel) (binary size : ℕ) : Prop :=
  ∀ pages h1 h2, stagePages ((size + 4095) / 4096) s.machine [] = (some pages, h1) →
    stageCopy binary (pages.headD 0) size 0 h1 = some h2 →
    (∀ i < size, (pages.headD 0 + i) / 4096 * 4096 ∈ pages) ∧ Loadable h2.mem (pages.headD 0) ∧
      HasFree h2 (20 + 4 * imagePages h2.mem (pages.headD 0))

/-- A good image once it is copied to its staging pages: these were free and hold data, and nothing
else has changed. -/
theorem GoodImage.staged {binary size : ℕ} {h1 h2 : Machine} (hgood : GoodImage s binary size)
    (ho : Owned use fl s.machine) (h0 : 0 < size)
    (hst : stagePages ((size + 4095) / 4096) s.machine [] = (some pages, h1))
    (hcopy : stageCopy binary (pages.headD 0) size 0 h1 = some h2) :
    ∃ use1 fl1, Owned use1 fl1 h2 ∧ pages.Nodup ∧ pages.headD 0 ∈ pages ∧
      (∀ f ∈ pages, use f = .free ∧ use1 f = .data) ∧ (∀ f, use f ≠ .free → use1 f = use f) ∧
      SameOutside pages s.machine.mem h2.mem ∧ Loadable h2.mem (pages.headD 0) ∧
      20 + 4 * imagePages h2.mem (pages.headD 0) ≤ fl1.length := by
  rcases stagePages_owned ho (List.forall_mem_nil _) .nil ((size + 4095) / 4096) with
    ⟨-, h', use', hst', -⟩ | ⟨h1', taken, use1, fl1, hst', hlen, rfl, ho1, hd, hk, hnd, hout⟩
  · cases hst.symm.trans hst'
  obtain ⟨htaken, rfl⟩ := Prod.mk.inj (hst.symm.trans hst')
  rw [List.nil_append] at htaken hnd
  obtain rfl := Option.some.inj htaken
  have hfree (f : ℕ) (hf : f ∈ pages) : use f = .free :=
    (ho.free f).mp (List.mem_append_left _ hf)
  obtain ⟨hfit, hload, fl2, hchain, hroom⟩ := hgood _ h1 h2 hst hcopy
  have hcopied := stageCopy_sameOutside hfit hcopy
  have heq : h2 = { h1 with mem := h2.mem } := (stageCopy_spec hcopy).1
  have ho2 : Owned use1 fl1 h2 := by
    rw [heq]
    exact ho1.sameOutside hcopied fun f hf => by rw [hd f hf]; exact id
  obtain rfl : fl2 = fl1 := hchain.unique ho2.chain
  have hbuf : pages.headD 0 ∈ pages := by
    cases pages with
    | nil =>
      rw [List.length_nil] at hlen
      omega
    | cons f pages => simp
  refine ⟨use1, fl2, ho2, hnd, hbuf, fun f hf => ⟨hfree f hf, hd f hf⟩,
    fun f hf => hk f fun hn => hf (hfree f hn), (hout.trans hcopied).mono fun f hf => ?_,
      hload, hroom⟩
  exact (List.mem_append.mp hf).elim id id

/-- The root of the address space that `create_elf` builds and the pages mapped in it. -/
def elfMaps (s : Kernel) (binary size wantPid : ℕ) : ℕ × List (ℕ × ℕ) :=
  if size < 64 ∨ 65536 < size then (0, [])
  else
    match stagePages ((size + 4095) / 4096) s.machine [] with
    | (none, _) => (0, [])
    | (some pages, h) =>
      ((stageCopy binary (pages.headD 0) size 0 h).map fun h =>
        stagedMaps s h (pages.headD 0) wantPid).getD (0, [])

/-- Only memory changed, or a task with a new address space was published. -/
inductive SpaceAdded (s : Kernel) (wantPid : ℕ) (maps : ℕ × List (ℕ × ℕ)) (use' : ℕ → Use) :
    ℤ × Kernel → Prop
  | refused (h : Machine) : SpaceAdded s wantPid maps use' (-1, { s with machine := h })
  | added {h : Machine} {kstack codePages : ℕ} (hn : NewSpace maps.2 h.mem maps.1)
      (hg : ∀ p ∈ maps.2, use' p.2 = .data) :
      SpaceAdded s wantPid maps use' (addTask s h none wantPid kstack maps.1 0x400000 codePages)

theorem createElf_safe {binary size : ℕ} {res : ℤ × Kernel} (hs : Safe use fl s)
    (hreuse : findReuse s wantPid = none) (hgood : GoodImage s binary size)
    (hc : createElf s binary size wantPid = some res) :
    ∃ use' fl', Safe use' fl' res.2 ∧
      Preserved (fun _ => True) use use' s.machine.mem res.2.machine.mem ∧
      SpaceAdded s wantPid (elfMaps s binary size wantPid) use' res ∧ OpensNew s res.2 := by
  unfold createElf at hc
  by_cases hsize : size < 64 ∨ 65536 < size
  · rw [if_pos hsize] at hc
    obtain rfl := Option.some.inj hc
    exact ⟨use, fl, hs, .refl _ _ _, .refused _, .refused s _⟩
  rw [if_neg hsize] at hc
  rw [elfMaps, if_neg hsize]
  rcases stagePages_owned hs.owned (fun f (hf : f ∈ []) => nomatch hf) .nil
    ((size + 4095) / 4096) with
    ⟨-, h', use', hst, ho, hk, hout⟩ | ⟨h1, taken, -, fl1, hst, -, rfl, -⟩
  · rw [hst] at hc ⊢
    obtain rfl := Option.some.inj hc
    have hkeep (f : ℕ) : use' f = use f := hk f List.not_mem_nil
    refine ⟨use', _, hs.keepsUses ho fun f _ _ => hkeep f, ⟨fun f hf _ => (hkeep f).trans hf,
      hs.owned.walks_sameOutside hout (fun f hf r p => ?_) _, hout.keepsUnused fun f hf => ?_,
      fun f hf => (hkeep f).trans hf⟩, .refused _, .refused s _⟩
    · rw [(hs.owned.free f).mp hf]
      exact nofun
    · rw [(hs.owned.free f).mp hf]
      exact nofun
  · rw [hst] at hc ⊢
    obtain ⟨h2, hcopy, hc⟩ := Option.bind_eq_some_iff.mp hc
    rw [List.nil_append] at hcopy hst
    obtain ⟨use1, fl1, ho2, hnd, hbuf, hpages, hkeep, hsame, hload, hroom⟩ :=
      hgood.staged hs.owned (by omega) hst hcopy
    have hfree (f : ℕ) (hf : f ∈ taken) : use f = .free := (hpages f hf).1
    have hs2 : Safe use1 fl1 { s with machine := h2 } := hs.keepsUses ho2 fun f hf _ => hkeep f hf
    obtain ⟨res', use', fl', hres, hs', hpres, -, hpub, hopens, -⟩ :=
      createStaged_safe hs2 (fun f hf => (hpages f hf).2) hnd hbuf hload hroom hreuse
    obtain rfl := Option.some.inj (hres.symm.trans hc)
    have hstaged : WalksAgree (shape use) (fun _ _ => False) s.machine.mem h2.mem := by
      refine hs.owned.walks_sameOutside hsame (fun f hf r p => ?_) _
      rw [hfree f hf]
      exact nofun
    have hquiet : KeepsUnused use s.machine.mem h2.mem := hsame.keepsUnused fun f hf => by
      rw [hfree f hf]
      exact nofun
    refine ⟨use', fl', hs', ⟨fun f hf _ => hpres.data f ?_ ?_, hstaged.trans hpres.walks ?_,
      hquiet.trans (fun f hf => ?_) hpres.unused, fun f hf => hpres.idle f ?_⟩, ?_, hopens⟩
    · rw [hkeep f (by rw [hf]; exact nofun), hf]
    · intro hn
      rw [hfree f hn] at hf
      cases hf
    · intro r hr
      have hu := shape_eq_some.mp hr
      exact shape_eq_some.mpr ((hkeep r (by rw [hu]; exact nofun)).trans hu)
    · rw [hkeep f (by rw [hf]; exact nofun), hf]
    · rw [hkeep f (by rw [hf]; exact nofun), hf]
    · have hmaps : ((stageCopy binary (taken.headD 0) size 0 h1).map fun h =>
          stagedMaps s h (taken.headD 0) wantPid).getD (0, []) =
          stagedMaps s h2 (taken.headD 0) wantPid := by
        rw [hcopy]
        rfl
      simp only [List.nil_append]
      rw [hmaps]
      cases hpub with
      | refused h' hr => exact .refused h'
      | added hm hn hg hf hv =>
        rw [hm]
        exact .added hn fun p hp => (hg p hp).2

theorem sysSpawnAt_safe {addr size : ℕ} {res : ℤ × Kernel} (hs : Safe use fl s)
    (hgood : GoodImage s addr size) (hc : sysSpawnAt s addr size = some res) :
    ∃ use' fl', Safe use' fl' res.2 ∧
      Preserved (fun _ => True) use use' s.machine.mem res.2.machine.mem ∧
      SpaceAdded s 0 (elfMaps s addr size 0) use' res := by
  have hfail (he : some (-1, s) = some res) : ∃ use' fl', Safe use' fl' res.2 ∧
      Preserved (fun _ => True) use use' s.machine.mem res.2.machine.mem ∧
      SpaceAdded s 0 (elfMaps s addr size 0) use' res := by
    obtain rfl := Option.some.inj he
    exact ⟨use, fl, hs, .refl _ _ _, .refused _⟩
  unfold sysSpawnAt at hc
  split at hc
  · exact hfail hc
  split at hc
  · obtain ⟨magic, -, hc⟩ := Option.bind_eq_some_iff.mp hc
    split at hc
    · obtain ⟨use', fl', hs', hpres, hadd, -⟩ := createElf_safe hs rfl hgood hc
      exact ⟨use', fl', hs', hpres, hadd⟩
    · exact hfail hc
  · exact hfail hc

end Create

end Mukrn
