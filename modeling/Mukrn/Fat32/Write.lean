import Mukrn.Fat32.Reads

/-! Write requests for names in the root directory. -/
namespace Mukrn.Fat32
open ByteMemory

/-- Only clusters that are free in the first volume differ in the second. -/
def Volume.Extends (V V₁ : Volume) : Prop :=
  ∀ c, V.fat c ≠ 0 → V₁.fat c = V.fat c ∧ V₁.data c = V.data c

namespace Volume.Extends

variable {L : Layout} {V V₁ : Volume} {k c : ℕ} {l : List ℕ} {own : Slot → Set ℕ} {p : Slot}

/-- The entries of a directory are untouched. -/
theorem entry_eq (h : V.Extends V₁) (hl : L.Chain V c l) (hp : p ∈ L.slots l) :
    V₁.entry p = V.entry p :=
  Volume.entry_congr (h _ (hl.used _ (Layout.mem_slots.mp hp).1).2).2

theorem sound (h : V.Extends V₁) (hS : L.Sound V k l own) : L.Sound V₁ k l own :=
  hS.congr fun c hc => h c (hS.owns.used c hc).2

end Volume.Extends

/-- The data of a request in a chain of its own: none without data, else the first free cluster. -/
inductive Stored (L : Layout) (V : Volume) (data : ℕ → UInt8) : ℕ → ℕ → List ℕ → Volume → Prop
  | none : Stored L V data 0 0 [] V
  | some {len c : ℕ} (hlen : 0 < len) (hf : V.firstFree L = some c) :
      Stored L V data len c [c] (V.stored c data len)

namespace Stored

variable {L : Layout} {V V₁ : Volume} {data : ℕ → UInt8} {len start k c : ℕ} {l lnew : List ℕ}
  {own : Slot → Set ℕ}

theorem agree (h : Stored L V data len start lnew V₁) : V.Extends V₁ := by
  intro c hc
  cases h with
  | none => exact ⟨rfl, rfl⟩
  | some hlen hf =>
    have hne : c ≠ start := by
      rintro rfl
      exact hc (Volume.firstFree_spec hf).2
    constructor
    · simp [Volume.stored, hne]
    · funext s
      simp [Volume.stored, hne]

theorem chain (h : Stored L V data len start lnew V₁) : L.Chain V₁ start lnew := by
  cases h with
  | none => exact .of_not_link rfl
  | some hlen hf => exact .single (Volume.firstFree_spec hf).1 (by simp [Volume.stored])

theorem fresh (h : Stored L V data len start lnew V₁) :
    ∀ a ∈ lnew, L.IsCluster a ∧ V.fat a = 0 := by
  cases h with
  | none => exact fun a ha => by cases ha
  | some hlen hf =>
    intro a ha
    rw [List.mem_singleton.mp ha]
    exact Volume.firstFree_spec hf

/-- Giving the chain back restores the table. -/
theorem free_fat (h : Stored L V data len start lnew V₁) : (V₁.free lnew).fat = V.fat := by
  cases h with
  | none => rw [Volume.free_nil]
  | some hlen hf =>
    funext c
    by_cases hc : c = start
    · simp [hc, (Volume.firstFree_spec hf).2]
    · simp [hc, Volume.stored]

theorem fat_iff (h : Stored L V data len start lnew V₁) (a : ℕ) :
    V₁.fat a ≠ 0 ↔ V.fat a ≠ 0 ∨ a ∈ lnew := by
  cases h with
  | none => simp
  | some hlen hf =>
    by_cases ha : a = start
    · simp [ha, Volume.stored, eoc]
    · simp [ha, Volume.stored]

theorem start_lt (h : Stored L V data len start lnew V₁) : start < 2 ^ 32 := by
  cases h with
  | none => decide
  | some hlen hf =>
    have hlt := (Volume.firstFree_spec hf).1.2
    have hle := L.limit_le
    unfold eoc at hle
    omega

end Stored

/-- What a write request does to the volume, and whether it is answered 200. -/
inductive WriteEffect (L : Layout) (V : Volume) (l : List ℕ) (name : List UInt8)
    (data : ℕ → UInt8) (len : ℕ) : Bool → Volume → Prop
  | noSpace (hlen : 0 < len) (hf : V.firstFree L = none) : WriteEffect L V l name data len false V
  | refused {p : Slot} {lp : List ℕ} {start : ℕ} {lnew : List ℕ} {V₁ : Volume}
      (hp : V.find name (L.slots l) = some p) (hlp : L.Chain V (V.entry p).cluster lp)
      (hend : V.endsAfter p = true) (hs : Stored L V data len start lnew V₁) :
      WriteEffect L V l name data len false ((V₁.overwritten p lp start len).free lnew)
  | overwritten {p : Slot} {lp : List ℕ} {start : ℕ} {lnew : List ℕ} {V₁ : Volume}
      (hp : V.find name (L.slots l) = some p) (hlp : L.Chain V (V.entry p).cluster lp)
      (hend : V.endsAfter p = false) (hs : Stored L V data len start lnew V₁) :
      WriteEffect L V l name data len true (V₁.overwritten p lp start len)
  | full {start : ℕ} {lnew : List ℕ} {V₁ : Volume} (hn : V.find name (L.slots l) = none)
      (hfull : V.freeSlot (L.slots l) = none) (hs : Stored L V data len start lnew V₁) :
      WriteEffect L V l name data len false (V₁.free lnew)
  | added {p : Slot} {start : ℕ} {lnew : List ℕ} {V₁ : Volume}
      (hn : V.find name (L.slots l) = none) (hp : V.freeSlot (L.slots l) = some p)
      (hs : Stored L V data len start lnew V₁) :
      WriteEffect L V l name data len true
        (V₁.added (p.target L.rootCluster) (fileEntry name start len))

namespace Layout.Sound

variable {L : Layout} {V V' : Volume} {k : ℕ} {l : List ℕ} {own : Slot → Set ℕ} {p : Slot}
  {name : List UInt8}

/-- What a name leads to is the same on volumes that agree on the root directory. -/
theorem find_congr (h : ∀ p ∈ L.slots l, V'.entry p = V.entry p) :
    V'.find name (L.slots l) = V.find name (L.slots l) := by
  have hactive : V'.active (L.slots l) = V.active (L.slots l) :=
    Volume.active_congr fun p hp => by rw [h p hp]
  rw [Volume.find, Volume.find, hactive]
  apply List.find?_congr
  intro p hp
  rw [h p (Volume.mem_of_active hp)]

theorem freeSlot_congr (h : ∀ p ∈ L.slots l, V'.entry p = V.entry p) :
    V'.freeSlot (L.slots l) = V.freeSlot (L.slots l) := by
  apply List.find?_congr
  intro p hp
  rw [h p hp]

theorem live_of_named {e : Entry} (h : e.isNamed name = true) :
    e.isLive = true ∧ e.name = name := by
  simpa [Entry.isNamed] using h

/-- The chain of the entry a name leads to. -/
theorem chain_of_find (h : L.Sound V k l own) (hp : V.find name (L.slots l) = some p) :
    ∃ lp, L.Chain V (V.entry p).cluster lp ∧ ∀ c ∈ lp, c ∈ own p :=
  (h.owns_entry (Volume.find_mem hp) (live_of_named (Volume.find_spec hp).2).1).chain

end Layout.Sound

section Requests

variable {δ : Type} (D : ReliableDisk δ) {L : Layout} {S₀ : ℕ → Sector} {V : Volume} {d : δ}
  {k len : ℕ} {l : List ℕ} {own : Slot → Set ℕ} {name : List UInt8}

/-- No later entry of the same sector has the name as well. -/
def Volume.OneInSector (V : Volume) (name : List UInt8) (ps : List Slot) : Prop :=
  ∀ p, V.find name ps = some p → ∀ j, p.index < j → j < 16 →
    (V.entry ⟨p.cluster, p.sector, j⟩).isNamed name = false

theorem storeData_cases (h : L.Holds S₀ (D.sectors d) V) (hb : L.Bounded S₀) (hle : len ≤ 512)
    (data : ℕ → UInt8) :
    (0 < len ∧ V.firstFree L = none ∧
      storeData D.toDevice L.toGeometry d data len = some (none, d)) ∨
    ∃ start lnew V₁ d', storeData D.toDevice L.toGeometry d data len = some (some start, d') ∧
      L.Holds S₀ (D.sectors d') V₁ ∧ Stored L V data len start lnew V₁ := by
  rcases Nat.eq_zero_or_pos len with rfl | hlen
  · exact .inr ⟨0, [], V, d, storeData_empty .., h, .none⟩
  · cases hf : V.firstFree L with
    | none => exact .inl ⟨hlen, rfl, storeData_full D h hb hlen hf data⟩
    | some c =>
      obtain ⟨d', hd, hd'⟩ := storeData_holds D h hb hlen hle hf data
      exact .inr ⟨c, [c], _, d', hd, hd', .some hlen hf⟩

theorem writeNamed_effect (h : L.Holds S₀ (D.sectors d) V) (hb : L.Bounded S₀)
    (hS : L.Sound V k l own) (hn : name.length = 11) (hle : len ≤ 512)
    (hone : V.OneInSector name (L.slots l)) (data : ℕ → UInt8) :
    ∃ b d' V', writeNamed D.toDevice L.toGeometry d L.rootCluster name data len = some (b, d') ∧
      L.Holds S₀ (D.sectors d') V' ∧ WriteEffect L V l name data len b V' := by
  have hfind := findInDir_eq D h hS.root.chain hn
  rcases storeData_cases D h hb hle data with ⟨hlen, hf, hstore⟩ | ⟨start, lnew, V₁, d₁,
    hstore, hd₁, hs⟩
  · refine ⟨false, d, V, ?_, h, .noSpace hlen hf⟩
    simp only [writeNamed, hfind, hstore, Option.bind_eq_bind, Option.bind_some]
  have hS₁ := hs.agree.sound hS
  have hentry (p : Slot) (hp : p ∈ L.slots l) : V₁.entry p = V.entry p :=
    hs.agree.entry_eq hS.root.chain hp
  cases hp : V.find name (L.slots l) with
  | some p =>
    obtain ⟨lp, hlp, hown⟩ := hS.chain_of_find hp
    have hmem := Layout.mem_slots.mp (Volume.find_mem hp)
    have hused (c : ℕ) (hc : c ∈ lp) : V.fat c ≠ 0 := (hlp.used c hc).2
    have hlp₁ : L.Chain V₁ (V.entry p).cluster lp :=
      hlp.congr fun c hc => (hs.agree c (hused c hc)).1
    have hp₁ : V₁.find name (L.slots l) = some p := (Layout.Sound.find_congr hentry).trans hp
    have hsector (j : ℕ) (hj : j < 16) :
        V₁.entry ⟨p.cluster, p.sector, j⟩ = V.entry ⟨p.cluster, p.sector, j⟩ :=
      hentry _ (Layout.mem_slots.mpr ⟨hmem.1, hmem.2.1, hj⟩)
    have hends : V₁.endsAfter p = V.endsAfter p := by
      rw [Bool.eq_iff_iff, Volume.endsAfter, Volume.endsAfter, List.any_eq_true, List.any_eq_true]
      constructor
      · rintro ⟨j, hj, hend⟩
        rw [hsector j (List.mem_range.mp hj)] at hend
        exact ⟨j, hj, hend⟩
      · rintro ⟨j, hj, hend⟩
        rw [← hsector j (List.mem_range.mp hj)] at hend
        exact ⟨j, hj, hend⟩
    obtain ⟨d', hover, hd'⟩ := overwriteEntry_holds D hd₁ hS₁.root.chain hn hp₁
      (fun j hkj hj => by rw [hsector j hj]; exact hone p hp j hkj hj) hlp₁ hs.chain
      (fun a ha hlp => hused a hlp (hs.fresh a ha).2) len
    rw [hends] at hover hd'
    have hres : writeNamed D.toDevice L.toGeometry d L.rootCluster name data len =
        some (!V.endsAfter p, d') := by
      simp only [writeNamed, hfind, hstore, hp, Option.bind_eq_bind, Option.bind_some,
        Option.map_some, hover]
    cases hend : V.endsAfter p with
    | true =>
      rw [hend] at hres
      rw [if_pos hend] at hd'
      exact ⟨false, d', _, hres, hd', .refused hp hlp hend hs⟩
    | false =>
      rw [hend] at hres
      rw [if_neg (by simp [hend])] at hd'
      exact ⟨true, d', _, hres, hd', .overwritten hp hlp hend hs⟩
  | none =>
    have hadd (b : Bool) (d' : δ) (hb : addEntry D.toDevice L.toGeometry d₁ L.rootCluster
        (fileEntry name start len) start = some (b, d')) :
        writeNamed D.toDevice L.toGeometry d L.rootCluster name data len = some (b, d') := by
      simp only [writeNamed, hfind, hstore, hp, Option.bind_eq_bind, Option.bind_some,
        Option.map_none, hb]
    have hslot := Layout.Sound.freeSlot_congr hentry
    cases hfree : V.freeSlot (L.slots l) with
    | none =>
      obtain ⟨d', hfull, hd'⟩ := addEntry_full D hd₁ hS₁.root.chain hs.chain (hslot.trans hfree)
        (fileEntry name start len)
      exact ⟨false, d', _, hadd _ _ hfull, hd', .full hp hfree hs⟩
    | some p =>
      obtain ⟨d', hnew, hd'⟩ := addEntry_holds D hd₁ hS₁.root.chain (hslot.trans hfree)
        (fileEntry name start len) start
      exact ⟨true, d', _, hadd _ _ hnew, hd', .added hp hfree hs⟩

theorem pathTail_eq_none {path : List UInt8} (h : 47 ∉ path) : pathTail path = none := by
  have hdrop : path.dropWhile (· ≠ 47) = [] := by
    rw [List.dropWhile_eq_nil_iff]
    intro b hb
    have hne : b ≠ 47 := fun he => h (he ▸ hb)
    simp [hne]
  rw [pathTail, hdrop]

theorem pathTail_eq_some {path : List UInt8} (h : 47 ∈ path) :
    ∃ rest, pathTail path = some rest ∧ ∀ b ∈ rest, b ∈ path := by
  unfold pathTail
  cases hdrop : path.dropWhile (· ≠ 47) with
  | nil =>
    have hall := List.dropWhile_eq_nil_iff.mp hdrop 47 h
    simp at hall
  | cons b rest =>
    refine ⟨rest, rfl, fun a ha => ?_⟩
    apply (List.dropWhile_suffix (· ≠ 47)).subset
    rw [hdrop]
    exact List.mem_cons_of_mem _ ha

/-- A write request for a name in the root directory. -/
structure IsWrite (req : Request) (path : List UInt8) (len : ℕ) : Prop where
  type : req.type = 2
  path_eq : req.path = path
  root : 47 ∉ path
  length : req.length = path.length + 1 + len
  fits : req.length ≤ 64

/-- A path ends before the first zero. -/
theorem Request.path_no_zero (req : Request) : 0 ∉ req.path := by
  rw [Request.path]
  intro hm
  simpa using List.mem_takeWhile_imp hm

theorem IsWrite.of_long {req : Request} (htype : req.type = 2) (hroot : 47 ∉ req.path)
    (hlong : req.path.length + 1 ≤ req.length) (hfits : req.length ≤ 64) :
    IsWrite req req.path (req.length - (req.path.length + 1)) :=
  ⟨htype, rfl, hroot, by omega, hfits⟩

/-- A write request whose length does not cover its path. -/
theorem serve_short (dev : Device δ) (spawn : Mem → ℕ → Option ℕ) (s : Server δ) {req : Request}
    (htype : req.type = 2) (hshort : req.length < req.path.length + 1) :
    serve dev spawn s req = some (.replied refused s) := by
  simp only [serve, htype, if_pos hshort]

/-- The file data in a request. -/
def Request.contents (req : Request) (path : List UInt8) : ℕ → UInt8 :=
  fun i => req.byte (path.length + 1 + i)

theorem serve_write (spawn : Mem → ℕ → Option ℕ) {s : Server δ} {req : Request}
    {path : List UInt8} (hgeo : s.geo = L.toGeometry) (hreq : IsWrite req path len)
    (h : L.Holds S₀ (D.sectors s.disk) V) (hb : L.Bounded S₀) (hS : L.Sound V k l own)
    (hone : V.OneInSector (to83 path) (L.slots l)) :
    ∃ b d' V', serve D.toDevice spawn s req =
        some (.replied (if b then [⟨200, []⟩] else refused) { s with disk := d' }) ∧
      L.Holds S₀ (D.sectors d') V' ∧
      WriteEffect L V l (to83 path) (req.contents path) len b V' := by
  have hlen : len ≤ 512 := by
    have h1 := hreq.length
    have h2 := hreq.fits
    omega
  obtain ⟨b, d', V', hwrite, hd', heffect⟩ := writeNamed_effect D h hb hS
    (to83_length path) hlen hone (req.contents path)
  refine ⟨b, d', V', ?_, hd', heffect⟩
  have hlt : ¬ req.length < path.length + 1 := by
    rw [hreq.length]
    omega
  have hsub : req.length - (path.length + 1) = len := by
    rw [hreq.length]
    omega
  simp only [serve, hreq.type, hreq.path_eq, if_neg hlt, hsub, inParent, resolveParent, hgeo,
    pathTail_eq_none hreq.root, Option.bind_eq_bind, Option.bind_some]
  rw [show (fun i => req.byte (path.length + 1 + i)) = req.contents path from rfl, hwrite]
  cases b <;> rfl

end Requests

end Mukrn.Fat32
