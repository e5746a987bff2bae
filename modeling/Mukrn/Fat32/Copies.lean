import Mukrn.Fat32.Requests
import Mukrn.Library.Runs

/-! The copies of the table. The server writes the first one only, so that they stay equal just as
long as no request changes a link. -/
namespace Mukrn.Fat32
open ByteMemory Runs

/-- The table regions of the disk hold the same bytes. -/
def CopiesEqual (g : Geometry) (S : ℕ → Sector) : Prop :=
  ∀ j < g.numFats, ∀ i < g.sectorsPerFat, ∀ b < 512,
    S (g.reservedSectors + j * g.sectorsPerFat + i) b = S (g.reservedSectors + i) b

theorem CopiesEqual.of_one {g : Geometry} (h : g.numFats ≤ 1) (S : ℕ → Sector) :
    CopiesEqual g S := by
  intro j hj i _ b _
  have hj0 : j = 0 := by omega
  rw [hj0, Nat.zero_mul, Nat.add_zero]

namespace Layout.Holds

variable {L : Layout} {S S₀ : ℕ → Sector} {V : Volume}

/-- With the links as they were, the first table is as it was. -/
theorem first_eq (h : L.Holds S₀ S V) (hfat : V.fat = (L.view S₀).fat) {i b : ℕ}
    (hi : i < L.sectorsPerFat) (hb : b < 512) :
    S (L.reservedSectors + i) b = S₀ (L.reservedSectors + i) b := by
  have hword := (Holds.refl S₀).word_eq h (c := i * 128 + b / 4) (congrFun hfat _) (by omega)
  have hdiv : (i * 128 + b / 4) / 128 = i := by omega
  have hmod : 4 * ((i * 128 + b / 4) % 128) + b % 4 = b := by omega
  unfold word at hword
  rw [hdiv] at hword
  have hbyte := eq_of_load_eq hword (b % 4) (Nat.mod_lt _ (by decide))
  rwa [hmod] at hbyte

/-- The sectors of a further copy. -/
theorem copy_eq (h : L.Holds S₀ S V) {j i : ℕ} (hj : j + 1 < L.numFats)
    (hi : i < L.sectorsPerFat) :
    S (L.reservedSectors + (j + 1) * L.sectorsPerFat + i) =
      S₀ (L.reservedSectors + (j + 1) * L.sectorsPerFat + i) := by
  have hle : (j + 1 + 1) * L.sectorsPerFat ≤ L.numFats * L.sectorsPerFat :=
    Nat.mul_le_mul_right _ hj
  rw [Nat.add_mul (j + 1), Nat.one_mul] at hle
  have hge : L.sectorsPerFat ≤ (j + 1) * L.sectorsPerFat := Nat.le_mul_of_pos_left _ (by omega)
  exact h.copies _ (by omega) (by omega)

/-- Where there is a second copy, equal copies stay equal exactly with the links as they were. -/
theorem copiesEqual_iff (h : L.Holds S₀ S V) (hcopies : CopiesEqual L.toGeometry S₀)
    (htwo : 2 ≤ L.numFats) : CopiesEqual L.toGeometry S ↔ V.fat = (L.view S₀).fat := by
  constructor
  · intro hequal
    funext c
    by_cases hc : L.IsCluster c
    · rw [← h.view_eq, view_fat hc, view_fat hc]
      have hi : c / 128 < L.sectorsPerFat := by
        have := hc.lt_entries
        omega
      have hload : L.word S c = L.word S₀ c := by
        apply load_congr
        intro b hb
        have hb' : 4 * (c % 128) + b < 512 := by omega
        rw [← hequal 1 htwo _ hi _ hb', ← hcopies 1 htwo _ hi _ hb', h.copy_eq (j := 0) htwo hi]
      rw [hload]
    · rw [← h.view_eq]
      simp [view, hc]
  · intro hfat j hj i hi b hb
    cases j with
    | zero => rw [Nat.zero_mul, Nat.add_zero]
    | succ j =>
      rw [h.copy_eq hj hi, h.first_eq hfat hi hb]
      exact hcopies (j + 1) hj i hi b hb

end Layout.Holds

/-- The request for a name in the root directory changes a link: its data goes to a new cluster, or
the chain of an entry is given back, or a directory is made. -/
inductive Relinks (L : Layout) (V : Volume) (l : List ℕ) (req : Request) : Prop
  | stored {p : Slot} (htype : req.type = 2) (hlong : req.path.length + 1 ≤ req.length)
      (hpos : 0 < req.dataLen) (hroom : V.firstFree L ≠ none)
      (hn : V.find (to83 req.path) (L.slots l) = none) (hp : V.freeSlot (L.slots l) = some p)
  | overwritten {p : Slot} (htype : req.type = 2) (hlong : req.path.length + 1 ≤ req.length)
      (hroom : 0 < req.dataLen → V.firstFree L ≠ none)
      (hp : V.find (to83 req.path) (L.slots l) = some p)
      (hlinks : 0 < req.dataLen ∧ V.endsAfter p = false ∨ isLink (V.entry p).cluster = true)
  | deleted {p : Slot} (htype : req.type = 3 ∨ req.type = 5)
      (hp : V.find (to83 req.path) (L.slots l) = some p) (hfile : (V.entry p).isDir = false)
      (hlink : isLink (V.entry p).cluster = true)
  | made {p : Slot} (htype : req.type = 4) (hroom : V.firstFree L ≠ none)
      (hp : V.freeSlot (L.slots l) = some p)

section Links

variable {L : Layout} {V V₁ V' : Volume} {l lp lnew : List ℕ} {req : Request} {b : Bool} {p : Slot}
  {data : ℕ → UInt8} {start len : ℕ} {name : List UInt8}

/-- Giving a chain back changes a link unless the chain is empty. -/
theorem free_fat_eq_iff (h : L.Chain V start lp) :
    (V.free lp).fat = V.fat ↔ isLink start = false := by
  constructor
  · intro heq
    cases lp with
    | nil => exact h.not_link
    | cons c lp =>
      have hc := congrFun heq c
      rw [Volume.free_fat, if_pos List.mem_cons_self] at hc
      exact absurd hc.symm (h.used c List.mem_cons_self).2
  · intro hlink
    rw [h.unique (.of_not_link hlink), Volume.free_nil]

theorem Stored.fat_eq_iff (h : Stored L V data len start lnew V₁) :
    V₁.fat = V.fat ↔ len = 0 := by
  cases h with
  | none => simp
  | some hlen hf =>
    have hne : (V.stored start data len).fat ≠ V.fat := by
      intro heq
      have hstart := congrFun heq start
      rw [(Volume.firstFree_spec hf).2] at hstart
      simp [Volume.stored, eoc] at hstart
    exact iff_of_false hne hlen.ne'

theorem Stored.room (h : Stored L V data len start lnew V₁) :
    0 < len → V.firstFree L ≠ Option.none := by
  intro hlen
  cases h with
  | none => exact absurd hlen (lt_irrefl 0)
  | some _ hf => simp [hf]

private theorem overwritten_fat_eq_iff (hlp : L.Chain V (V.entry p).cluster lp)
    (hs : Stored L V data len start lnew V₁) :
    (V₁.overwritten p lp start len).fat = V.fat ↔
      len = 0 ∧ isLink (V.entry p).cluster = false := by
  rw [← hs.fat_eq_iff, ← free_fat_eq_iff hlp]
  constructor
  · intro heq
    have hnil : lp = [] := by
      cases lp with
      | nil => rfl
      | cons c lp =>
        have hc := congrFun heq c
        simp only [Volume.overwritten, Volume.setSlot_fat, Volume.free_fat,
          if_pos List.mem_cons_self] at hc
        exact absurd hc.symm (hlp.used c List.mem_cons_self).2
    subst hnil
    rw [Volume.free_nil]
    refine ⟨?_, rfl⟩
    rwa [Volume.overwritten, Volume.setSlot_fat, Volume.free_nil] at heq
  · rintro ⟨hstored, hfree⟩
    rw [← hfree]
    funext c
    simp [Volume.overwritten, hstored]

/-- The chain that was stored is given back together with the old one. -/
private theorem refused_fat (hs : Stored L V data len start lnew V₁) (p : Slot) (lp : List ℕ) :
    ((V₁.overwritten p lp start len).free lnew).fat = (V.free lp).fat := by
  funext c
  rw [Volume.free_fat, Volume.overwritten, Volume.setSlot_fat, Volume.free_fat, Volume.free_fat,
    ← hs.free_fat, Volume.free_fat]
  split_ifs <;> rfl

/-- The chain of a directory is not given back. -/
private theorem deleted_fat_eq_iff (hlp : L.Chain V (V.entry p).cluster lp) :
    ((V.deleted p).free ((V.entry p).released lp)).fat = V.fat ↔
      (V.entry p).isDir = true ∨ isLink (V.entry p).cluster = false := by
  rw [← free_fat_eq_iff hlp, Entry.released]
  have hfat (le : List ℕ) : ((V.deleted p).free le).fat = (V.free le).fat := rfl
  rw [hfat]
  cases hdir : (V.entry p).isDir with
  | true => simp [Volume.free_nil]
  | false => simp

theorem WriteEffect.relinks_iff (h : WriteEffect L V l (to83 req.path) data req.dataLen b V')
    (htype : req.type = 2) (hlong : req.path.length + 1 ≤ req.length) :
    V'.fat ≠ V.fat ↔ Relinks L V l req := by
  constructor
  · intro hne
    cases h with
    | noSpace hlen hf => exact absurd rfl hne
    | refused hp hlp hend hs =>
      rw [refused_fat hs, ne_eq, free_fat_eq_iff hlp, Bool.not_eq_false] at hne
      exact .overwritten htype hlong hs.room hp (.inr hne)
    | overwritten hp hlp hend hs =>
      rw [ne_eq, overwritten_fat_eq_iff hlp hs, not_and_or, Bool.not_eq_false] at hne
      exact .overwritten htype hlong hs.room hp
        (hne.imp_left fun hlen => ⟨Nat.pos_of_ne_zero hlen, hend⟩)
    | full hn hfull hs => exact absurd hs.free_fat hne
    | added hn hp hs =>
      have hpos : 0 < req.dataLen := by
        apply Nat.pos_of_ne_zero
        intro hlen
        exact hne (hs.fat_eq_iff.mpr hlen)
      exact .stored htype hlong hpos (hs.room hpos) hn hp
  · intro hrelinks
    cases hrelinks with
    | stored _ _ hpos hroom hn hp =>
      obtain ⟨-, start, lnew, V₁, hs, rfl⟩ := h.isAdded hn (fun _ => hroom) hp
      exact fun heq => hpos.ne' (hs.fat_eq_iff.mp heq)
    | overwritten _ _ hroom hp hlinks =>
      cases h with
      | noSpace hlen hf => exact absurd hf (hroom hlen)
      | refused hq hlq hend hs =>
        obtain rfl := Option.some.inj (hp.symm.trans hq)
        rw [refused_fat hs, ne_eq, free_fat_eq_iff hlq, Bool.not_eq_false]
        exact hlinks.resolve_left fun hbad => by simp [hend] at hbad
      | overwritten hq hlq hend hs =>
        obtain rfl := Option.some.inj (hp.symm.trans hq)
        rw [ne_eq, overwritten_fat_eq_iff hlq hs, not_and_or, Bool.not_eq_false]
        exact hlinks.imp_left fun hlen => hlen.1.ne'
      | full hn => exact absurd (hp.symm.trans hn) (by simp)
      | added hn => exact absurd (hp.symm.trans hn) (by simp)
    | deleted hdel => omega
    | made hmake => omega

theorem DeleteEffect.relinks_iff (h : DeleteEffect L V l (to83 req.path) b V')
    (htype : req.type = 3 ∨ req.type = 5) : V'.fat ≠ V.fat ↔ Relinks L V l req := by
  constructor
  · intro hne
    cases h with
    | missing hn => exact absurd rfl hne
    | deleted hp hlp =>
      rw [ne_eq, deleted_fat_eq_iff hlp, not_or, Bool.not_eq_true, Bool.not_eq_false] at hne
      exact .deleted htype hp hne.1 hne.2
  · intro hrelinks
    cases hrelinks with
    | stored h2 => omega
    | overwritten h2 => omega
    | deleted _ hp hfile hlink =>
      cases h with
      | missing hn => exact absurd (hp.symm.trans hn) (by simp)
      | deleted hq hlq =>
        obtain rfl := Option.some.inj (hp.symm.trans hq)
        rw [ne_eq, deleted_fat_eq_iff hlq, not_or, Bool.not_eq_true, Bool.not_eq_false]
        exact ⟨hfile, hlink⟩
    | made h4 => omega

theorem MakeEffect.relinks_iff (h : MakeEffect L V l (to83 req.path) b V')
    (htype : req.type = 4) : V'.fat ≠ V.fat ↔ Relinks L V l req := by
  constructor
  · intro hne
    cases h with
    | noSpace hf => exact absurd rfl hne
    | full hf hfull =>
      refine absurd ?_ hne
      funext c
      have hfree := (Volume.firstFree_spec hf).2
      simp only [Volume.free_fat, List.mem_singleton, Volume.withDots, Volume.setSector_fat,
        Volume.setFat_fat]
      split_ifs with hc
      · rw [hc, hfree]
      · rfl
    | added hf hp => exact .made htype (by simp [hf]) hp
  · intro hrelinks
    cases hrelinks with
    | stored h2 => omega
    | overwritten h2 => omega
    | deleted h3 => omega
    | made _ hroom hp =>
      cases h with
      | noSpace hf => exact absurd hf hroom
      | full hf hfull => exact absurd (hp.symm.trans hfull) (by simp)
      | @added c q hf hq =>
        intro heq
        have hc := congrFun heq c
        rw [(Volume.firstFree_spec hf).2] at hc
        simp [Volume.added, Volume.withDots, eoc] at hc

theorem Effect.relinks_iff (h : Effect L V l req b V') :
    V'.fat ≠ V.fat ↔ Relinks L V l req := by
  cases h with
  | short htype hshort =>
    refine iff_of_false (fun hne => hne rfl) fun hrelinks => ?_
    cases hrelinks <;> omega
  | write htype hlong h => exact h.relinks_iff htype hlong
  | delete htype h => exact h.relinks_iff htype
  | make htype h => exact h.relinks_iff htype

end Links

section Runs

variable {δ : Type}

/-- The server after a request. A crash ends the run with the disk as it was. -/
def requestStep (dev : Device δ) (spawn : Mem → ℕ → Option ℕ) (s : Server δ) (req : Request) :
    Option (Server δ) :=
  match serve dev spawn s req with
  | some (.replied _ s') => some s'
  | some (.crashed _) => none
  | none => none

theorem requestStep_eq_some {dev : Device δ} {spawn : Mem → ℕ → Option ℕ} {s s' : Server δ}
    {req : Request} (h : requestStep dev spawn s req = some s') :
    ∃ r, serve dev spawn s req = some (.replied r s') := by
  unfold requestStep at h
  split at h
  next r s₁ hserve => exact ⟨r, by rw [hserve, Option.some.inj h]⟩
  next => cases h
  next => cases h

variable {D : ReliableDisk δ} {L : Layout} {k : ℕ} {l : List ℕ} {own : Slot → Set ℕ}
  {s s' : Server δ}

/-- On a consistent volume with two copies or more, a request that changes the root directory keeps
equal copies equal exactly when it changes no link. -/
theorem serve_copiesEqual_iff (spawn : Mem → ℕ → Option ℕ) (req : Request)
    (hgeo : s.geo = L.toGeometry) (hc : L.Consistent (D.sectors s.disk) k l own)
    (hcopies : CopiesEqual s.geo (D.sectors s.disk)) (htwo : 2 ≤ s.geo.numFats)
    (htype : 2 ≤ req.type ∧ req.type ≤ 5) (hroot : 47 ∉ req.path) (hfits : req.length ≤ 64) :
    ∃ s', requestStep D.toDevice spawn s req = some s' ∧
      (CopiesEqual s'.geo (D.sectors s'.disk) ↔
        ¬ Relinks L (L.view (D.sectors s.disk)) l req) := by
  obtain ⟨b, d', V', hres, h', heffect⟩ :=
    serve_root D spawn req hgeo hc (by omega) hroot hfits
  rw [hgeo] at hcopies htwo
  refine ⟨{ s with disk := d' }, by rw [requestStep, hres], ?_⟩
  rw [← heffect.relinks_iff, not_not, ← h'.copiesEqual_iff hcopies htwo]
  exact iff_of_eq (congrArg (CopiesEqual · _) hgeo)

/-- The request changes no link, or there is no second copy: it does not change the disk, or it is
for a name in the root directory of a consistent volume and takes and gives back no cluster. -/
def KeepsTable (D : ReliableDisk δ) (s : Server δ) (req : Request) : Prop :=
  s.geo.numFats ≤ 1 ∨ ¬ (2 ≤ req.type ∧ req.type ≤ 5) ∨ 47 ∈ req.path ∨
    ∃ L k l own, s.geo = L.toGeometry ∧ L.Consistent (D.sectors s.disk) k l own ∧
      req.length ≤ 64 ∧ ¬ Relinks L (L.view (D.sectors s.disk)) l req

private theorem requestStep_copiesEqual {spawn : Mem → ℕ → Option ℕ} {req : Request}
    (hcopies : CopiesEqual s.geo (D.sectors s.disk)) (hreq : KeepsTable D s req)
    (hstep : requestStep D.toDevice spawn s req = some s') :
    CopiesEqual s'.geo (D.sectors s'.disk) := by
  obtain ⟨r, hserve⟩ := requestStep_eq_some hstep
  have hgeo' := serve_geo hserve
  by_cases hone : s.geo.numFats ≤ 1
  · exact .of_one (by rwa [hgeo']) _
  by_cases hdisk : ¬ (2 ≤ req.type ∧ req.type ≤ 5) ∨ 47 ∈ req.path
  · rw [hgeo', serve_disk hserve hdisk]
    exact hcopies
  · obtain ⟨htype, hroot⟩ := not_or.mp hdisk
    rcases hreq with h | h | h | ⟨L, k, l, own, hgeo, hc, hfits, hkeep⟩
    · exact absurd h hone
    · exact absurd h htype
    · exact absurd h hroot
    · obtain ⟨s₁, hs₁, hiff⟩ := serve_copiesEqual_iff spawn req hgeo hc hcopies
        (Nat.lt_of_not_le hone) (not_not.mp htype) hroot hfits
      obtain rfl := Option.some.inj (hs₁.symm.trans hstep)
      exact hiff.mpr hkeep

/-- Along every sequence of requests that change no link, equal copies of the table stay equal. -/
theorem fat_copies_stay_equal (spawn : Mem → ℕ → Option ℕ)
    (hcopies : CopiesEqual s.geo (D.sectors s.disk))
    (hrun : Reach (requestStep D.toDevice spawn) (KeepsTable D) s s') :
    CopiesEqual s'.geo (D.sectors s'.disk) := by
  apply hrun.invariant (P := fun s => CopiesEqual s.geo (D.sectors s.disk)) hcopies
  intro t req u ht hreq hstep
  exact requestStep_copiesEqual ht hreq hstep

private theorem sampleServer_copies (n : ℕ) :
    CopiesEqual (sampleServer n).geo (sampleServer n).disk := by
  intro j hj i hi b _
  have hj2 : j < 2 := hj
  have hi1 : i < 1 := hi
  obtain rfl : i = 0 := by omega
  have hcases : j = 0 ∨ j = 1 := by omega
  rcases hcases with rfl | rfl
  · rfl
  · rfl

/-- Deleting the empty file A. -/
theorem fat_copies_stay_equal_sample :
    CopiesEqual (sampleServer 1).geo (sampleServer 1).disk ∧
    ∃ s', requestStep arrayDisk.toDevice (fun _ _ => none) (sampleServer 1)
        ⟨3, fun i => if i = 0 then 65 else 0, 2⟩ = some s' ∧ CopiesEqual s'.geo s'.disk := by
  have hcopies := sampleServer_copies 1
  have hc := sampleServer_consistent (n := 1) (by decide)
  have hpath : (⟨3, fun i => if i = 0 then 65 else 0, 2⟩ : Request).path = [65] := by decide +kernel
  have hp : (sampleVolume 1).find (to83 [65]) (sampleLayout.slots [2]) = some ⟨2, 0, 0⟩ := by
    decide +kernel
  have hcluster : ((sampleVolume 1).entry ⟨2, 0, 0⟩).cluster = 0 := by decide +kernel
  have hkeep : ¬ Relinks sampleLayout (sampleVolume 1) [2]
      ⟨3, fun i => if i = 0 then 65 else 0, 2⟩ := by
    intro hrelinks
    cases hrelinks with
    | stored htype => cases htype
    | overwritten htype => cases htype
    | deleted _ hq _ hlink =>
      rw [hpath] at hq
      obtain rfl := Option.some.inj (hp.symm.trans hq)
      rw [hcluster] at hlink
      cases hlink
    | made htype => cases htype
  obtain ⟨s', hstep, -⟩ := serve_copiesEqual_iff (D := arrayDisk) (s := sampleServer 1)
    (fun _ _ => none) ⟨3, fun i => if i = 0 then 65 else 0, 2⟩ rfl hc hcopies (by decide)
    (by decide)
    (by rw [hpath]; decide) (by decide)
  refine ⟨hcopies, s', hstep, ?_⟩
  apply fat_copies_stay_equal (D := arrayDisk) (s := sampleServer 1) (fun _ _ => none) hcopies
  exact .tail .refl (.inr (.inr (.inr ⟨_, _, _, _, rfl, hc, by decide, hkeep⟩))) hstep

/-- A new file with one byte makes the copies differ. -/
theorem write_splits_copies :
    CopiesEqual (sampleServer 1).geo (sampleServer 1).disk ∧
    ∃ s', requestStep arrayDisk.toDevice (fun _ _ => none) (sampleServer 1)
        (writeRequest [66] (fun _ => 7) 1) = some s' ∧ ¬ CopiesEqual s'.geo s'.disk := by
  have hcopies := sampleServer_copies 1
  have hpath : (writeRequest [66] (fun _ => 7) 1).path = [66] :=
    (writeRequest_spec (fun _ => 7) (by decide) (by decide) (by decide)).1.path_eq
  have hn : (sampleVolume 1).find (to83 [66]) (sampleLayout.slots [2]) = none := by decide +kernel
  have hslot : (sampleVolume 1).freeSlot (sampleLayout.slots [2]) = some ⟨2, 0, 1⟩ := by
    decide +kernel
  have hroom : (sampleVolume 1).firstFree sampleLayout ≠ none := by decide +kernel
  have hlinks : Relinks sampleLayout (sampleVolume 1) [2] (writeRequest [66] (fun _ => 7) 1) := by
    refine .stored rfl ?_ ?_ hroom ?_ hslot
    · rw [hpath]
      decide
    · rw [Request.dataLen, hpath]
      decide
    · rw [hpath]
      exact hn
  obtain ⟨s', hstep, hiff⟩ := serve_copiesEqual_iff (D := arrayDisk) (s := sampleServer 1)
    (fun _ _ => none) (writeRequest [66] (fun _ => 7) 1) rfl
    (sampleServer_consistent (n := 1) (by decide)) hcopies (by decide) (by decide)
    (by rw [hpath]; decide) (by decide)
  exact ⟨hcopies, s', hstep, fun hequal => hiff.mp hequal hlinks⟩

end Runs

end Mukrn.Fat32
