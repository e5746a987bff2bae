import Mukrn.Fat32.OneFile

/-! The requests that change the root directory: what each of them does to the volume. -/
namespace Mukrn.Fat32
open ByteMemory

/-- What a request to delete a name does to the volume, and whether it is answered 200. -/
inductive DeleteEffect (L : Layout) (V : Volume) (l : List ℕ) (name : List UInt8) :
    Bool → Volume → Prop
  | missing (hn : V.find name (L.slots l) = none) : DeleteEffect L V l name false V
  | deleted {p : Slot} {lp : List ℕ} (hp : V.find name (L.slots l) = some p)
      (hlp : L.Chain V (V.entry p).cluster lp) :
      DeleteEffect L V l name true ((V.deleted p).free ((V.entry p).released lp))

/-- What a request for a new directory does to the volume, and whether it is answered 200. -/
inductive MakeEffect (L : Layout) (V : Volume) (l : List ℕ) (name : List UInt8) :
    Bool → Volume → Prop
  | noSpace (hf : V.firstFree L = none) : MakeEffect L V l name false V
  | full {c : ℕ} (hf : V.firstFree L = some c) (hfull : V.freeSlot (L.slots l) = none) :
      MakeEffect L V l name false ((V.withDots c L.rootCluster).free [c])
  | added {c : ℕ} {p : Slot} (hf : V.firstFree L = some c) (hp : V.freeSlot (L.slots l) = some p) :
      MakeEffect L V l name true
        ((V.withDots c L.rootCluster).added (p.target L.rootCluster) (dirEntry name c))

/-- The number of data bytes of a write request. -/
def Request.dataLen (req : Request) : ℕ := req.length - (req.path.length + 1)

/-- What a request of the types 2 to 5 for a name in the root directory does. -/
inductive Effect (L : Layout) (V : Volume) (l : List ℕ) (req : Request) : Bool → Volume → Prop
  | short (htype : req.type = 2) (hshort : req.length < req.path.length + 1) :
      Effect L V l req false V
  | write {b : Bool} {V' : Volume} (htype : req.type = 2)
      (hlong : req.path.length + 1 ≤ req.length)
      (h : WriteEffect L V l (to83 req.path) (req.contents req.path) req.dataLen b V') :
      Effect L V l req b V'
  | delete {b : Bool} {V' : Volume} (htype : req.type = 3 ∨ req.type = 5)
      (h : DeleteEffect L V l (to83 req.path) b V') : Effect L V l req b V'
  | make {b : Bool} {V' : Volume} (htype : req.type = 4)
      (h : MakeEffect L V l (to83 req.path) b V') : Effect L V l req b V'

section Effects

variable {L : Layout} {V V' : Volume} {l : List ℕ} {req : Request} {b : Bool}

theorem Effect.write_of (h : Effect L V l req b V') (htype : req.type = 2)
    (hlong : req.path.length + 1 ≤ req.length) :
    WriteEffect L V l (to83 req.path) (req.contents req.path) req.dataLen b V' := by
  cases h with
  | short _ hshort => omega
  | write _ _ h => exact h
  | delete hdel => omega
  | make hmake => omega

theorem Effect.delete_of (h : Effect L V l req b V') (htype : req.type = 3 ∨ req.type = 5) :
    DeleteEffect L V l (to83 req.path) b V' := by
  cases h with
  | short h2 => omega
  | write h2 => omega
  | delete _ h => exact h
  | make h4 => omega

theorem Effect.make_of (h : Effect L V l req b V') (htype : req.type = 4) :
    MakeEffect L V l (to83 req.path) b V' := by
  cases h with
  | short h2 => omega
  | write h2 => omega
  | delete hdel => omega
  | make _ h => exact h

end Effects

section Requests

variable {δ : Type} (D : ReliableDisk δ) {L : Layout} {S₀ : ℕ → Sector} {V : Volume} {d : δ}
  {k c : ℕ} {l : List ℕ} {own : Slot → Set ℕ} {name : List UInt8}

theorem deleteEntry_effect (h : L.Holds S₀ (D.sectors d) V) (hS : L.Sound V k l own)
    (hn : name.length = 11) :
    ∃ b d' V', deleteEntry D.toDevice L.toGeometry d L.rootCluster name = some (b, d') ∧
      L.Holds S₀ (D.sectors d') V' ∧ DeleteEffect L V l name b V' := by
  cases hp : V.find name (L.slots l) with
  | none => exact ⟨false, d, V, deleteEntry_missing D h hS.root.chain hn hp, h, .missing hp⟩
  | some p =>
    obtain ⟨lp, hlp, -⟩ := hS.chain_of_find hp
    obtain ⟨d', hdel, hd'⟩ := deleteEntry_holds D h hS.root.chain hn hp hlp
    exact ⟨true, d', _, hdel, hd', .deleted hp hlp⟩

/-- A new directory only takes a cluster that was free. -/
theorem withDots_agree (hf : V.firstFree L = some c) (parent : ℕ) :
    V.Extends (V.withDots c parent) := by
  intro a ha
  have hne : a ≠ c := by
    rintro rfl
    exact ha (Volume.firstFree_spec hf).2
  constructor
  · simp [Volume.withDots, hne]
  · funext s
    simp [Volume.withDots, hne]

theorem withDots_chain (hf : V.firstFree L = some c) (parent : ℕ) :
    L.Chain (V.withDots c parent) c [c] :=
  .single (Volume.firstFree_spec hf).1 (by simp [Volume.withDots])

theorem makeDir_effect (h : L.Holds S₀ (D.sectors d) V) (hb : L.Bounded S₀)
    (hS : L.Sound V k l own) (name : List UInt8) :
    ∃ b d' V', makeDir D.toDevice L.toGeometry d L.rootCluster name = some (b, d') ∧
      L.Holds S₀ (D.sectors d') V' ∧ MakeEffect L V l name b V' := by
  cases hf : V.firstFree L with
  | none => exact ⟨false, d, V, makeDir_none D h hb hf, h, .noSpace hf⟩
  | some c =>
    obtain ⟨d₁, hmake, hd₁⟩ := makeDir_some D h hb hf L.rootCluster name
    have hagree := withDots_agree hf L.rootCluster
    have hS₁ := hagree.sound hS
    have hslot : (V.withDots c L.rootCluster).freeSlot (L.slots l) = V.freeSlot (L.slots l) :=
      Layout.Sound.freeSlot_congr fun p hp => hagree.entry_eq hS.root.chain hp
    cases hp : V.freeSlot (L.slots l) with
    | none =>
      obtain ⟨d', hadd, hd'⟩ := addEntry_full D hd₁ hS₁.root.chain (withDots_chain hf _)
        (hslot.trans hp) (dirEntry name c)
      exact ⟨false, d', _, hmake.trans hadd, hd', .full hf hp⟩
    | some p =>
      obtain ⟨d', hadd, hd'⟩ := addEntry_holds D hd₁ hS₁.root.chain (hslot.trans hp)
        (dirEntry name c) c
      exact ⟨true, d', _, hmake.trans hadd, hd', .added hf hp⟩

/-- A name without a slash is in the root directory. -/
theorem inParent_root {dev : Device δ} {s : Server δ} {path : List UInt8}
    {change : ℕ → List UInt8 → Option (Bool × δ)} {b : Bool} {d' : δ} (hroot : 47 ∉ path)
    (h : change s.geo.rootCluster (to83 path) = some (b, d')) :
    inParent dev s path change =
      some (.replied (if b then [⟨200, []⟩] else refused) { s with disk := d' }) := by
  simp only [inParent, resolveParent, pathTail_eq_none hroot, Option.bind_eq_bind,
    Option.bind_some, h]
  cases b <;> rfl

theorem serve_root (spawn : Mem → ℕ → Option ℕ) {s : Server δ} (req : Request)
    (hgeo : s.geo = L.toGeometry) (hc : L.Consistent (D.sectors s.disk) k l own)
    (htype : req.type = 2 ∨ req.type = 3 ∨ req.type = 4 ∨ req.type = 5) (hroot : 47 ∉ req.path)
    (hfits : req.length ≤ 64) :
    ∃ b d' V', serve D.toDevice spawn s req =
        some (.replied (if b then [⟨200, []⟩] else refused) { s with disk := d' }) ∧
      L.Holds (D.sectors s.disk) (D.sectors d') V' ∧
      Effect L (L.view (D.sectors s.disk)) l req b V' := by
  have hdelete (hdel : req.type = 3 ∨ req.type = 5) : ∃ b d' V', serve D.toDevice spawn s req =
        some (.replied (if b then [⟨200, []⟩] else refused) { s with disk := d' }) ∧
      L.Holds (D.sectors s.disk) (D.sectors d') V' ∧
      Effect L (L.view (D.sectors s.disk)) l req b V' := by
    obtain ⟨b, d', V', hdel', hd', heffect⟩ := deleteEntry_effect D (.refl (D.sectors s.disk))
      hc.sound (to83_length req.path)
    refine ⟨b, d', V', ?_, hd', .delete hdel heffect⟩
    rcases hdel with h | h <;> simp only [serve, h] <;>
      exact inParent_root hroot (by rw [hgeo]; exact hdel')
  rcases htype with h2 | h3 | h4 | h5
  · by_cases hshort : req.length < req.path.length + 1
    · exact ⟨false, s.disk, _, serve_short D.toDevice spawn s h2 hshort, .refl _, .short h2 hshort⟩
    · have hlong := Nat.not_lt.mp hshort
      obtain ⟨b, d', V', hres, hd', heffect⟩ := serve_write D spawn hgeo
        (IsWrite.of_long h2 hroot hlong hfits) (.refl _) hc.bounded hc.sound
        (Layout.Sound.oneInSector hc.unique)
      exact ⟨b, d', V', hres, hd', .write h2 hlong heffect⟩
  · exact hdelete (.inl h3)
  · obtain ⟨b, d', V', hmake, hd', heffect⟩ := makeDir_effect D (.refl (D.sectors s.disk))
      hc.bounded hc.sound (to83 req.path)
    refine ⟨b, d', V', ?_, hd', .make h4 heffect⟩
    simp only [serve, h4]
    exact inParent_root hroot (by rw [hgeo]; exact hmake)
  · exact hdelete (.inr h5)

end Requests

section Unchanged

variable {δ : Type} {dev : Device δ} {spawn : Mem → ℕ → Option ℕ} {s s' : Server δ} {req : Request}
  {path : List UInt8} {change : ℕ → List UInt8 → Option (Bool × δ)} {r : List Reply}

theorem inParent_geo (h : inParent dev s path change = some (.replied r s')) :
    s'.geo = s.geo := by
  simp only [inParent, Option.bind_eq_bind, Option.bind_eq_some_iff] at h
  obtain ⟨parent, -, h⟩ := h
  cases parent with
  | missing =>
    cases h
    rfl
  | fault => cases h
  | inDir c name =>
    obtain ⟨⟨b, d⟩, -, h⟩ := Option.bind_eq_some_iff.mp h
    cases b <;> cases h <;> rfl

theorem notMem_of_pathTail (h : pathTail path = none) : 47 ∉ path := by
  unfold pathTail at h
  split at h
  next hnil =>
    intro hmem
    have hall := List.dropWhile_eq_nil_iff.mp hnil 47 hmem
    simp at hall
  next => cases h

/-- Behind a slash nothing is changed: the directory is missing, or looking it up faults. -/
theorem inParent_slash (hslash : 47 ∈ path)
    (h : inParent dev s path change = some (.replied r s')) : r = refused ∧ s' = s := by
  simp only [inParent, Option.bind_eq_bind, Option.bind_eq_some_iff] at h
  obtain ⟨parent, hparent, h⟩ := h
  cases parent with
  | missing =>
    cases h
    exact ⟨rfl, rfl⟩
  | fault => cases h
  | inDir c name =>
    unfold resolveParent at hparent
    split at hparent
    next hnone => exact absurd hslash (notMem_of_pathTail hnone)
    next rest hrest =>
      split at hparent
      · cases hparent
      · obtain ⟨res, -, hres⟩ := Option.bind_eq_some_iff.mp hparent
        cases res <;> cases hres

/-- A request that is answered leaves the disk alone or changes the directory of its path. -/
theorem serve_cases (h : serve dev spawn s req = some (.replied r s')) :
    (2 ≤ req.type ∧ req.type ≤ 5 → r = refused) ∧ s'.geo = s.geo ∧ s'.disk = s.disk ∨
      (2 ≤ req.type ∧ req.type ≤ 5) ∧
        ∃ change, inParent dev s req.path change = some (.replied r s') := by
  unfold serve at h
  split at h
  case h_1 =>
    obtain ⟨out, -, hout⟩ := Option.map_eq_some_iff.mp h
    cases hout
    exact .inl ⟨by omega, rfl, rfl⟩
  case h_2 =>
    obtain ⟨out, -, hout⟩ := Option.map_eq_some_iff.mp h
    cases hout
    exact .inl ⟨by omega, rfl, rfl⟩
  case h_3 htype =>
    dsimp only at h
    split at h
    · cases h
      exact .inl ⟨fun _ => rfl, rfl, rfl⟩
    · exact .inr ⟨by omega, _, h⟩
  case h_4 htype => exact .inr ⟨by omega, _, h⟩
  case h_5 htype => exact .inr ⟨by omega, _, h⟩
  case h_6 htype => exact .inr ⟨by omega, _, h⟩
  case h_7 =>
    cases h
    exact .inl ⟨fun _ => rfl, rfl, rfl⟩

theorem serve_geo (h : serve dev spawn s req = some (.replied r s')) : s'.geo = s.geo := by
  rcases serve_cases h with hsame | ⟨-, change, hchange⟩
  · exact hsame.2.1
  · exact inParent_geo hchange

/-- Reading and starting programs, unknown requests and paths with a slash leave the disk alone. -/
theorem serve_disk (h : serve dev spawn s req = some (.replied r s'))
    (hreq : ¬ (2 ≤ req.type ∧ req.type ≤ 5) ∨ 47 ∈ req.path) : s'.disk = s.disk := by
  rcases serve_cases h with hsame | ⟨htype, change, hchange⟩
  · exact hsame.2.2
  · rw [(inParent_slash (hreq.resolve_left (· htype)) hchange).2]

/-- A change behind a slash is never confirmed. -/
theorem serve_slash (h : serve dev spawn s req = some (.replied r s'))
    (htype : 2 ≤ req.type ∧ req.type ≤ 5) (hslash : 47 ∈ req.path) : r = refused := by
  rcases serve_cases h with hsame | ⟨-, change, hchange⟩
  · exact hsame.1 htype
  · exact (inParent_slash hslash hchange).1

end Unchanged

end Mukrn.Fat32
