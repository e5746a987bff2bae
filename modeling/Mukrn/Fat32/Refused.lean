import Mukrn.Fat32.OneFile

/-! A write request that is refused. It is meant to leave every file readable and no entry behind
that leads to a free cluster. -/
namespace Mukrn.Fat32
open ByteMemory

/-- The clusters visited from `s` on, free or not. -/
def Volume.Linked (V : Volume) (s : ℕ) (l : List ℕ) : Prop :=
  LinkedStack.Chain (fun c => link (V.fat c)) 0 (link s) l

/-- The clusters of a directory that can be reached from the root. -/
inductive Layout.DirAt (L : Layout) (V : Volume) : List ℕ → Prop
  | root {l : List ℕ} (hl : V.Linked L.rootCluster l) : DirAt L V l
  | sub {l l' : List ℕ} {p : Slot} (h : DirAt L V l) (hp : p ∈ V.active (L.slots l))
      (howner : (V.entry p).isOwner = true) (hdir : (V.entry p).isDir = true)
      (hl' : V.Linked (V.entry p).cluster l') : DirAt L V l'

/-- No entry leads to a free cluster. -/
def Layout.NoDangling (L : Layout) (V : Volume) : Prop :=
  ∀ l, L.DirAt V l → ∀ p ∈ V.active (L.slots l), (V.entry p).isOwner = true →
    isLink (V.entry p).cluster = true → V.fat (V.entry p).cluster ≠ 0

/-- A path to a name in the root directory or in a directory there. -/
def Names (L : Layout) (V : Volume) (l : List ℕ) (path : List UInt8) : Prop :=
  0 ∉ path ∧ (47 ∉ path ∨
    ∃ p, V.find (to83 (pathHead path)) (L.slots l) = some p ∧ (V.entry p).isDir = true)

/-- An existing name whose entry is changed before the request is refused: an end mark follows in
its sector, and there is data to store, or there was data, or files below it. -/
def Unfinished (L : Layout) (V : Volume) (l : List ℕ) (path : List UInt8) (len : ℕ) : Prop :=
  ∃ p lp, V.find (to83 path) (L.slots l) = some p ∧ V.endsAfter p = true ∧
    L.Chain V (V.entry p).cluster lp ∧
    (0 < len ∧ V.firstFree L ≠ none ∨ len = 0 ∧ (0 < (V.entry p).size ∧ lp ≠ [] ∨
      (V.entry p).isDir = true ∧ ∃ rest, 0 ∉ rest ∧ V.find (to83 rest) (L.slots lp) ≠ none))

section Tree

variable {L : Layout} {V V' V₁ : Volume} {k len start : ℕ} {l lp lnew : List ℕ}
  {own : Slot → Set ℕ} {p : Slot} {name : List UInt8} {data : ℕ → UInt8}

/-- Every directory that can be reached is in order. -/
theorem Layout.DirAt.dir (hS : L.Sound V k l own) {l' : List ℕ} (h : L.DirAt V l') :
    ∃ j s own', L.Dir V (L.Owns V j) s l' own' := by
  induction h with
  | root hl =>
    obtain rfl := hl.unique hS.root.chain.linked
    exact ⟨k, _, own, hS.root⟩
  | sub _ hp howner hdir hl' ih =>
    obtain ⟨j, s, own', hd⟩ := ih
    have howns := hd.owner _ hp howner
    rw [hdir] at howns
    cases j with
    | zero => exact absurd howns Layout.Owns.not_dir
    | succ j =>
      obtain ⟨l'', own'', hd'', -⟩ := Layout.Owns.dir_iff.mp howns
      obtain rfl := hl'.unique hd''.chain.linked
      exact ⟨j, _, own'', hd''⟩

theorem Layout.Sound.noDangling (hS : L.Sound V k l own) : L.NoDangling V := by
  intro l' hl' p hp howner hlink
  obtain ⟨j, s, own', hd⟩ := hl'.dir hS
  obtain ⟨lc, hlc, -⟩ := (hd.owner p hp howner).chain
  cases lc with
  | nil =>
    rw [hlc.not_link] at hlink
    cases hlink
  | cons a lc =>
    obtain ⟨heq, -, hused, -⟩ := Layout.Chain.cons_iff.mp hlc
    rw [heq]
    exact hused

/-- The entry a name leads to gets a new chain of clusters that were free. -/
theorem overwritten_sound (hS : L.Sound V k l own) (hs : Stored L V data len start lnew V₁)
    (hp : V.find name (L.slots l) = some p) (hlp : L.Chain V (V.entry p).cluster lp) {M : Set ℕ}
    (hnew : L.Owns (V₁.overwritten p lp start len) k (V.entry p).isDir start M)
    (hfresh : ∀ c ∈ M, V.fat c = 0) :
    L.Sound (V₁.overwritten p lp start len) k l (Function.update own p M) := by
  have hmem := Volume.find_mem hp
  have hlive := (Layout.Sound.live_of_named (Volume.find_spec hp).2).1
  obtain ⟨hact, howner⟩ := hS.active_of_live hmem hlive
  have hentry : (V₁.overwritten p lp start len).entry p =
      { V.entry p with cluster := start, size := len % 2 ^ 32 } := by
    rw [entry_overwritten, if_pos rfl, hs.agree.entry_eq hS.root.chain hmem,
      Nat.mod_eq_of_lt hs.start_lt]
  have hother (q : Slot) (hq : q ∈ L.slots l) (hqp : q ≠ p) :
      (V₁.overwritten p lp start len).entry q = V.entry q := by
    rw [entry_overwritten, if_neg hqp, hs.agree.entry_eq hS.root.chain hq]
  have htidy : (V₁.overwritten p lp start len).Tidy (L.slots l) := by
    apply hS.tidy.congr
    intro q hq
    by_cases hqp : q = p
    · rw [hqp, hentry]
      rfl
    · rw [hother q hq hqp]
  have hused (c : ℕ) (hc : c ∈ M) : c ∉ allOf l own := hS.not_mem_of_free (hfresh c hc)
  apply hS.replace
  · exact fun c hc => overwritten_fat hS hs.agree hp hlp hc
  · exact hother
  · exact fun q hqp c hc => overwritten_agree hS hs.agree hp hlp hqp hc
  · exact htidy
  · intro _ _
    rw [hentry]
    exact hnew
  · intro hnot
    refine absurd ⟨htidy.mem_active.mpr ⟨hmem, ?_⟩, ?_⟩ hnot
    · rw [hentry]
      exact Volume.not_end_of_active hact
    · rw [hentry]
      exact howner
  · intro _
    rw [hentry]
    exact hS.noDots p hmem hlive
  · exact fun c hc hm => hused c hm (.inl hc)
  · intro q _
    rw [Set.disjoint_left]
    exact fun c hm hc => hused c hm (Layout.Sound.mem_allOf_of_own hc)

/-- Without a chain nothing is owned. -/
theorem Layout.Owns.empty {isDir : Bool} {s : ℕ} {M : Set ℕ} (h : L.Owns V k isDir s M)
    (hno : isLink start = false) : L.Owns V' k isDir start ∅ := by
  have hnil : L.Chain V' start [] := .of_not_link hno
  cases isDir with
  | false => exact file_iff.mpr ⟨[], hnil, by simp⟩
  | true =>
    cases k with
    | zero => exact absurd h not_dir
    | succ k =>
      refine dir_iff.mpr ⟨[], fun _ => ∅, ⟨hnil, ?_, ?_, ?_, ?_⟩, by simp [allOf]⟩
      · exact fun p hp => (by cases hp)
      · exact fun _ _ => rfl
      · exact fun _ c hc => (by cases hc)
      · exact fun _ _ _ => Set.disjoint_empty _

end Tree

theorem pathHead_eq {path : List UInt8} (h : 47 ∉ path) : pathHead path = path := by
  rw [pathHead, List.takeWhile_eq_self_iff]
  intro b hb
  have hne : b ≠ 47 := fun he => h (he ▸ hb)
  simp [hne]

theorem path_append {path : List UInt8} (h : 47 ∉ path) (rest : List UInt8) :
    pathHead (path ++ 47 :: rest) = path ∧ pathTail (path ++ 47 :: rest) = some rest := by
  have hall : ∀ b ∈ path, (decide (b ≠ 47)) = true := by
    intro b hb
    have hne : b ≠ 47 := fun he => h (he ▸ hb)
    simp [hne]
  constructor
  · rw [pathHead, List.takeWhile_append_of_pos hall]
    simp
  · rw [pathTail, List.dropWhile_append_of_pos hall]
    simp

section Reads

variable {δ : Type} (D : ReliableDisk δ) {L : Layout} {S₀ S₀' : ℕ → Sector} {V V' : Volume}
  {s s' : Server δ} {k : ℕ} {l lq : List ℕ} {own : Slot → Set ℕ} {path rest bytes : List UInt8}
  {p q : Slot}

theorem not_sends_refused (h : serveRead D.toDevice s.geo s.disk path = some refused) :
    ¬ Sends D.toDevice s path bytes := by
  rintro ⟨msgs, hmsgs, -⟩
  rw [h] at hmsgs
  have hlast := congrArg List.getLast? (Option.some.inj hmsgs)
  simp [refused] at hlast

/-- A read that ends sends what its data messages hold. -/
theorem sends_of_sendLoop {size c : ℕ} {msgs : List Reply}
    (hread : serveRead D.toDevice s.geo s.disk path =
      sendLoop D.toDevice L.toGeometry s.disk size maxSteps c 0)
    (hmsgs : sendLoop D.toDevice L.toGeometry s.disk size maxSteps c 0 =
      some (msgs ++ [⟨101, []⟩])) :
    Sends D.toDevice s path (payload msgs) ∧ ∀ m ∈ msgs, m.IsData := by
  have hdata : ∀ m ∈ msgs, m.IsData := by
    obtain ⟨msgs', hdata, heq | heq⟩ := sendLoop_messages hmsgs
    · rw [List.append_cancel_right heq]
      exact hdata
    · have hlast := congrArg List.getLast? heq
      simp [refused] at hlast
  exact ⟨⟨msgs, hread.trans hmsgs, fun m hm => (hdata m hm).1, rfl⟩, hdata⟩

/-- A path through a directory of the root. -/
theorem resolvePath_sub (hgeo : s.geo = L.toGeometry) (h : L.Holds S₀ (D.sectors s.disk) V)
    (hl : L.Chain V L.rootCluster l) (hlen : (pathHead path).length ≤ 63)
    (htail : pathTail path = some rest)
    (hq : V.find (to83 (pathHead path)) (L.slots l) = some q)
    (hlq : L.Chain V (V.entry q).cluster lq) :
    resolvePath D.toDevice s.geo s.disk path = some ((V.find (to83 rest) (L.slots lq)).map
      fun p => ((V.entry p).cluster, (V.entry p).size)) := by
  have hhead := findInDir_eq D h hl (to83_length (pathHead path))
  have hrest := findInDir_eq D h hlq (to83_length rest)
  rw [hq, Option.map_some] at hhead
  rw [hgeo, resolvePath]
  split
  next hnone =>
    rw [htail] at hnone
    cases hnone
  next rest' hsome =>
    obtain rfl := Option.some.inj (htail.symm.trans hsome)
    rw [if_neg (Nat.not_lt.mpr hlen), hhead, Option.bind_eq_bind, Option.bind_some]
    exact hrest

theorem serveRead_sub_found (hgeo : s.geo = L.toGeometry) (h : L.Holds S₀ (D.sectors s.disk) V)
    (hl : L.Chain V L.rootCluster l) (hlen : (pathHead path).length ≤ 63)
    (htail : pathTail path = some rest)
    (hq : V.find (to83 (pathHead path)) (L.slots l) = some q)
    (hlq : L.Chain V (V.entry q).cluster lq) (hp : V.find (to83 rest) (L.slots lq) = some p) :
    serveRead D.toDevice s.geo s.disk path =
      sendLoop D.toDevice L.toGeometry s.disk (V.entry p).size maxSteps (V.entry p).cluster 0 := by
  have hres := resolvePath_sub D hgeo h hl hlen htail hq hlq
  rw [hp, Option.map_some] at hres
  rw [serveRead, hres, Option.bind_eq_bind, Option.bind_some, hgeo]

theorem serveRead_sub_missing (hgeo : s.geo = L.toGeometry) (h : L.Holds S₀ (D.sectors s.disk) V)
    (hl : L.Chain V L.rootCluster l) (hlen : (pathHead path).length ≤ 63)
    (htail : pathTail path = some rest)
    (hq : V.find (to83 (pathHead path)) (L.slots l) = some q)
    (hlq : L.Chain V (V.entry q).cluster lq) (hp : V.find (to83 rest) (L.slots lq) = none) :
    serveRead D.toDevice s.geo s.disk path = some refused := by
  have hres := resolvePath_sub D hgeo h hl hlen htail hq hlq
  rw [hp, Option.map_none] at hres
  rw [serveRead, hres, Option.bind_eq_bind, Option.bind_some]

/-- A path whose first part is too long or not found. -/
theorem serveRead_no_head (hgeo : s.geo = L.toGeometry) (h : L.Holds S₀ (D.sectors s.disk) V)
    (hl : L.Chain V L.rootCluster l) (htail : pathTail path = some rest)
    (hno : 63 < (pathHead path).length ∨ V.find (to83 (pathHead path)) (L.slots l) = none) :
    serveRead D.toDevice s.geo s.disk path = some refused := by
  have hhead := findInDir_eq D h hl (to83_length (pathHead path))
  have hres : resolvePath D.toDevice s.geo s.disk path = some none := by
    by_cases hlen : 63 < (pathHead path).length
    · simp only [resolvePath, htail, if_pos hlen]
    · rw [hno.resolve_left hlen, Option.map_none] at hhead
      simp only [resolvePath, htail, if_neg hlen, hgeo, hhead, Option.bind_eq_bind,
        Option.bind_some]
  rw [serveRead, hres, Option.bind_eq_bind, Option.bind_some]

/-- The entries of a directory that names of paths lead to have chains of their own. -/
theorem Layout.Dir.chain_of_find {sub : ℕ} {c : ℕ} {own' : Slot → Set ℕ}
    (hd : L.Dir V (L.Owns V sub) c lq own') (h0 : 0 ∉ rest)
    (hp : V.find (to83 rest) (L.slots lq) = some p) :
    ∃ lp, L.Chain V (V.entry p).cluster lp ∧ ∀ a ∈ lp, a ∈ own' p := by
  obtain ⟨hact, hnamed⟩ := Volume.find_spec hp
  obtain ⟨hlive, hname⟩ := Layout.Sound.live_of_named hnamed
  refine (hd.owner p hact ?_).chain
  have hdot : (V.entry p).isDot = false := by
    rw [Entry.isDot, Entry.first, hname]
    exact beq_eq_false_iff_ne.mpr (to83_first h0).1
  simp [Entry.isOwner, hlive, hdot]

/-- A path reads the same when the entry of its first part and all clusters below are the same. -/
theorem sends_kept (hgeo : s.geo = L.toGeometry) (hgeo' : s'.geo = L.toGeometry)
    (h : L.Holds S₀ (D.sectors s.disk) V) (h' : L.Holds S₀' (D.sectors s'.disk) V')
    (hS : L.Sound V k l own) (hl' : L.Chain V' L.rootCluster l) (hnames : Names L V l path)
    (hsame : ∀ q, V.find (to83 (pathHead path)) (L.slots l) = some q →
      V'.find (to83 (pathHead path)) (L.slots l) = some q ∧ V'.entry q = V.entry q ∧
        ∀ c ∈ own q, V'.fat c = V.fat c ∧ V'.data c = V.data c)
    (hsend : Sends D.toDevice s path bytes) : Sends D.toDevice s' path bytes := by
  have hl := hS.root.chain
  have hto (heq : serveRead D.toDevice s'.geo s'.disk path =
      serveRead D.toDevice s.geo s.disk path) : Sends D.toDevice s' path bytes := by
    rw [Sends, heq]
    exact hsend
  by_cases hslash : 47 ∈ path
  · obtain ⟨rest, htail, hsub⟩ := pathTail_eq_some hslash
    have h0 : 0 ∉ rest := fun hm => hnames.1 (hsub 0 hm)
    obtain ⟨q, hq, hdir⟩ := hnames.2.resolve_left (not_not.mpr hslash)
    by_cases hlen : 63 < (pathHead path).length
    · exact absurd hsend (not_sends_refused D (serveRead_no_head D hgeo h hl htail (.inl hlen)))
    have hlen' := Nat.not_lt.mp hlen
    obtain ⟨hq', hentry, hagree⟩ := hsame q hq
    have howns := hS.owns_entry (Volume.find_mem hq)
      (Layout.Sound.live_of_named (Volume.find_spec hq).2).1
    rw [hdir] at howns
    cases k with
    | zero => exact absurd howns Layout.Owns.not_dir
    | succ k =>
      obtain ⟨lq, own', hd, hall⟩ := Layout.Owns.dir_iff.mp howns
      have hin (c : ℕ) (hc : c ∈ allOf lq own') : V'.fat c = V.fat c ∧ V'.data c = V.data c :=
        hagree c (hall ▸ hc)
      have hlq' : L.Chain V' (V'.entry q).cluster lq := by
        rw [hentry]
        exact hd.chain.congr fun c hc => (hin c (.inl hc)).1
      have hslots (r : Slot) (hr : r ∈ L.slots lq) : V'.entry r = V.entry r :=
        Volume.entry_congr (hin _ (.inl (Layout.mem_slots.mp hr).1)).2
      have hfind : V'.find (to83 rest) (L.slots lq) = V.find (to83 rest) (L.slots lq) :=
        Layout.Sound.find_congr hslots
      cases hp : V.find (to83 rest) (L.slots lq) with
      | none =>
        exact absurd hsend
          (not_sends_refused D (serveRead_sub_missing D hgeo h hl hlen' htail hq hd.chain hp))
      | some p =>
        obtain ⟨lp, hlp, hown⟩ := hd.chain_of_find h0 hp
        apply hto
        rw [serveRead_sub_found D hgeo h hl hlen' htail hq hd.chain hp,
          serveRead_sub_found D hgeo' h' hl' hlen' htail hq' hlq' (hfind.trans hp),
          hslots p (Volume.find_mem hp)]
        exact (sendLoop_congr D h h' hlp
          (fun a ha => hin a (.inr (Set.mem_iUnion.mpr ⟨p, hown a ha⟩))) hlp.length_lt 0).1
  · rw [pathHead_eq hslash] at hsame
    cases hq : V.find (to83 path) (L.slots l) with
    | none =>
      exact absurd hsend (not_sends_refused D (serveRead_missing D hgeo h hl hslash hq))
    | some q =>
      obtain ⟨hq', hentry, hagree⟩ := hsame q hq
      obtain ⟨lq, hlq, hown⟩ := hS.chain_of_find hq
      apply hto
      rw [serveRead_found D hgeo h hl hslash hq, serveRead_found D hgeo' h' hl' hslash hq', hentry]
      exact (sendLoop_congr D h h' hlq (fun a ha => hagree a (hown a ha)) hlq.length_lt 0).1

end Reads

/-- What a refused request is meant to leave: all that could be read, and no entry that leads to a
free cluster. -/
structure Harmless {δ : Type} (D : ReliableDisk δ) (L : Layout) (l : List ℕ) (s s' : Server δ) :
    Prop where
  reads : ∀ path bytes, Names L (L.view (D.sectors s.disk)) l path →
    Sends D.toDevice s path bytes → Sends D.toDevice s' path bytes
  noDangling : L.NoDangling (L.view (D.sectors s'.disk))

section Main

variable {δ : Type} {D : ReliableDisk δ} {L : Layout} {s : Server δ} {k len : ℕ} {l lp : List ℕ}
  {own : Slot → Set ℕ} {path name : List UInt8} {data : ℕ → UInt8} {d' : δ} {V V' : Volume}
  {p : Slot}

/-- Nothing that is in use has changed. -/
private theorem harmless_of_agree (hgeo : s.geo = L.toGeometry)
    (hS : L.Sound (L.view (D.sectors s.disk)) k l own)
    (h' : L.Holds (D.sectors s.disk) (D.sectors d') V')
    (hV : ∀ c ∈ allOf l own, V'.fat c = (L.view (D.sectors s.disk)).fat c ∧
      V'.data c = (L.view (D.sectors s.disk)).data c) :
    Harmless D L l s { s with disk := d' } := by
  have hS' := hS.congr hV
  have hentry (q : Slot) (hq : q ∈ L.slots l) :
      V'.entry q = (L.view (D.sectors s.disk)).entry q :=
    Volume.entry_congr (hV _ (.inl (Layout.mem_slots.mp hq).1)).2
  constructor
  · intro path bytes hnames
    refine sends_kept D hgeo hgeo (.refl _) h' hS hS'.root.chain hnames fun q hq => ?_
    refine ⟨(Layout.Sound.find_congr hentry).trans hq, hentry q (Volume.find_mem hq),
      fun c hc => ?_⟩
    exact hV c (Layout.Sound.mem_allOf_of_own hc)
  · rw [show L.view (D.sectors d') = V' from h'.view_eq]
    exact hS'.noDangling

/-- An entry without data or files below it loses its chain. -/
private theorem harmless_emptied (hgeo : s.geo = L.toGeometry)
    (hS : L.Sound (L.view (D.sectors s.disk)) k l own)
    (hp : (L.view (D.sectors s.disk)).find name (L.slots l) = some p)
    (hlp : L.Chain (L.view (D.sectors s.disk)) ((L.view (D.sectors s.disk)).entry p).cluster lp)
    (h' : L.Holds (D.sectors s.disk) (D.sectors d')
      ((L.view (D.sectors s.disk)).overwritten p lp 0 0))
    (hsize : 0 < ((L.view (D.sectors s.disk)).entry p).size → lp = [])
    (hsub : ((L.view (D.sectors s.disk)).entry p).isDir = true → ∀ rest, 0 ∉ rest →
      (L.view (D.sectors s.disk)).find (to83 rest) (L.slots lp) = none) :
    Harmless D L l s { s with disk := d' } := by
  have hs : Stored L (L.view (D.sectors s.disk)) (fun _ => 0) 0 0 [] (L.view (D.sectors s.disk)) :=
    .none
  have hmem := Volume.find_mem hp
  have howns := hS.owns_entry hmem (Layout.Sound.live_of_named (Volume.find_spec hp).2).1
  have hS' := overwritten_sound hS hs hp hlp (howns.empty rfl) fun c hc => (by cases hc)
  have hfind (m : List UInt8) := find_overwritten hS.root.chain hs.agree hmem lp 0 0 m
  constructor
  · intro path bytes hnames hsend
    by_cases hhead : to83 (pathHead path) = name
    · -- the name itself: it sends nothing, and there is nothing below it
      by_cases hslash : 47 ∈ path
      · obtain ⟨rest, htail, hrest⟩ := pathTail_eq_some hslash
        obtain ⟨q, hq, hdir⟩ := hnames.2.resolve_left (not_not.mpr hslash)
        rw [← hhead] at hp
        obtain rfl := Option.some.inj (hp.symm.trans hq)
        have hnone := hsub hdir rest fun hm => hnames.1 (hrest 0 hm)
        by_cases hlen : 63 < (pathHead path).length
        · exact absurd hsend (not_sends_refused D
            (serveRead_no_head D hgeo (.refl _) hS.root.chain htail (.inl hlen)))
        · exact absurd hsend (not_sends_refused D (serveRead_sub_missing D hgeo (.refl _)
            hS.root.chain (Nat.not_lt.mp hlen) htail hp hlp hnone))
      · rw [pathHead_eq hslash] at hhead
        rw [← hhead] at hp
        have hbytes : bytes = [] := by
          refine (sends_empty D hgeo (.refl _) hS.root.chain hslash hp ?_ bytes).mp hsend
          rcases Nat.eq_zero_or_pos ((L.view (D.sectors s.disk)).entry p).size with h0 | hpos
          · exact .inl h0
          · rw [hsize hpos] at hlp
            exact .inr hlp.not_link
        refine (sends_empty D (s := { s with disk := d' }) hgeo h' hS'.root.chain hslash
          ((hfind _).trans hp) (.inl ?_) bytes).mpr hbytes
        rw [entry_overwritten, if_pos rfl]
        rfl
    · refine sends_kept D hgeo hgeo (.refl _) h' hS hS'.root.chain hnames (fun q hq => ?_) hsend
      have hqp : q ≠ p := by
        rintro rfl
        have h₁ := (Layout.Sound.live_of_named (Volume.find_spec hq).2).2
        have h₂ := (Layout.Sound.live_of_named (Volume.find_spec hp).2).2
        exact hhead (h₁.symm.trans h₂)
      refine ⟨(hfind _).trans hq, ?_, fun c hc => overwritten_agree hS hs.agree hp hlp hqp hc⟩
      rw [entry_overwritten, if_neg hqp]
  · rw [show L.view (D.sectors d') = _ from h'.view_eq]
    exact hS'.noDangling

/-- An entry that leads to a cluster given back. -/
private theorem not_harmless_of_data {start : ℕ} {lnew : List ℕ} {V₁ : Volume}
    (hS : L.Sound V k l own) (hp : V.find name (L.slots l) = some p)
    (hlp : L.Chain V (V.entry p).cluster lp) (hs : Stored L V data len start lnew V₁)
    (hpos : 0 < len) : ¬ L.NoDangling ((V₁.overwritten p lp start len).free lnew) := by
  have hmem := Volume.find_mem hp
  have hchain : L.Chain ((V₁.overwritten p lp start len).free lnew) L.rootCluster l := by
    apply hS.root.chain.congr
    intro c hc
    have hout : c ∉ lnew := fun hm => (hS.root.chain.used c hc).2 (hs.fresh c hm).2
    rw [Volume.free_fat, if_neg hout]
    exact overwritten_fat hS hs.agree hp hlp hc
  have hentry : ((V₁.overwritten p lp start len).free lnew).entry p =
      { V.entry p with cluster := start, size := len % 2 ^ 32 } := by
    change (V₁.overwritten p lp start len).entry p = _
    rw [entry_overwritten, if_pos rfl, hs.agree.entry_eq hS.root.chain hmem,
      Nat.mod_eq_of_lt hs.start_lt]
  have hact : p ∈ ((V₁.overwritten p lp start len).free lnew).active (L.slots l) := by
    have hspec := Volume.find_spec
      ((find_overwritten hS.root.chain hs.agree hmem lp start len name).trans hp)
    exact hspec.1
  have howner := (hS.active_of_live hmem
    (Layout.Sound.live_of_named (Volume.find_spec hp).2).1).2
  intro hno
  have hfat := hno l (.root hchain.linked) p hact
  rw [hentry] at hfat
  refine hfat howner (hs.data_eq hpos).1.isLink ?_
  rw [Volume.free_fat, if_pos (hs.start_mem hpos)]

/-- A request for an existing name that is refused after the data is stored. -/
private theorem WriteEffect.isRefused {b : Bool} (h : WriteEffect L V l name data len b V')
    (hp : V.find name (L.slots l) = some p) (hlp : L.Chain V (V.entry p).cluster lp)
    (hend : V.endsAfter p = true) (hroom : 0 < len → V.firstFree L ≠ none) :
    b = false ∧ ∃ start lnew V₁, Stored L V data len start lnew V₁ ∧
      V' = (V₁.overwritten p lp start len).free lnew := by
  cases h with
  | noSpace hlen hf => exact absurd hf (hroom hlen)
  | @refused q lq start lnew V₁ hq hlq _ hs =>
    obtain rfl := Option.some.inj (hp.symm.trans hq)
    obtain rfl := hlp.unique hlq
    exact ⟨rfl, start, lnew, V₁, hs, rfl⟩
  | overwritten hq _ hnot =>
    obtain rfl := Option.some.inj (hp.symm.trans hq)
    rw [hend] at hnot
    cases hnot
  | full hn => rw [hp] at hn; cases hn
  | added hn => rw [hp] at hn; cases hn

/-- A file with data, or one below a directory, that is no longer found. -/
private theorem not_harmless_of_emptied (hgeo : s.geo = L.toGeometry)
    (hS : L.Sound (L.view (D.sectors s.disk)) k l own) (hroot : 47 ∉ path) (h0 : 0 ∉ path)
    (hlen : path.length ≤ 63)
    (hp : (L.view (D.sectors s.disk)).find (to83 path) (L.slots l) = some p)
    (hlp : L.Chain (L.view (D.sectors s.disk)) ((L.view (D.sectors s.disk)).entry p).cluster lp)
    (h' : L.Holds (D.sectors s.disk) (D.sectors d')
      ((L.view (D.sectors s.disk)).overwritten p lp 0 0))
    (hlost : 0 < ((L.view (D.sectors s.disk)).entry p).size ∧ lp ≠ [] ∨
      ((L.view (D.sectors s.disk)).entry p).isDir = true ∧ ∃ rest, 0 ∉ rest ∧
        (L.view (D.sectors s.disk)).find (to83 rest) (L.slots lp) ≠ none) :
    ¬ Harmless D L l s { s with disk := d' } := by
  have hs : Stored L (L.view (D.sectors s.disk)) (fun _ => 0) 0 0 [] (L.view (D.sectors s.disk)) :=
    .none
  have hmem := Volume.find_mem hp
  have hlive := (Layout.Sound.live_of_named (Volume.find_spec hp).2).1
  have hl' : L.Chain ((L.view (D.sectors s.disk)).overwritten p lp 0 0) L.rootCluster l :=
    hS.root.chain.congr fun c hc => overwritten_fat hS hs.agree hp hlp hc
  have hp' := (find_overwritten hS.root.chain hs.agree hmem lp 0 0 (to83 path)).trans hp
  have hentry : ((L.view (D.sectors s.disk)).overwritten p lp 0 0).entry p =
      { (L.view (D.sectors s.disk)).entry p with cluster := 0, size := 0 } := by
    rw [entry_overwritten, if_pos rfl]
    rfl
  intro hkept
  rcases hlost with ⟨hsize, hne⟩ | ⟨hdir, rest, hr0, hsome⟩
  · obtain ⟨c, lc, rfl⟩ := List.exists_cons_of_ne_nil hne
    obtain ⟨hc, hcl, -⟩ := Layout.Chain.cons_iff.mp hlp
    have hread := serveRead_found D hgeo (.refl _) hS.root.chain hroot hp
    obtain ⟨-, msgs, hmsgs⟩ := sendLoop_congr D (.refl _) (.refl _) hlp (fun _ _ => ⟨rfl, rfl⟩)
      hlp.length_lt 0
    obtain ⟨hsend, hdata⟩ := sends_of_sendLoop D hread hmsgs
    have hsend' := hkept.reads path _ ⟨h0, .inl hroot⟩ hsend
    have hnil := (sends_empty D (s := { s with disk := d' }) hgeo h' hl' hroot hp'
      (.inl (by rw [hentry])) _).mp hsend'
    have hmne : msgs ≠ [] := by
      rintro rfl
      rw [hc] at hmsgs
      exact sendLoop_ne_end D (.refl _) hcl hsize hmsgs
    exact payload_ne_nil hdata hmne hnil
  · obtain ⟨r, hr⟩ := Option.ne_none_iff_exists'.mp hsome
    obtain ⟨hhead, htail⟩ := path_append hroot rest
    have hp₁ : (L.view (D.sectors s.disk)).find (to83 (pathHead (path ++ 47 :: rest))) (L.slots l) =
        some p := by rw [hhead]; exact hp
    have hp₂ : ((L.view (D.sectors s.disk)).overwritten p lp 0 0).find
        (to83 (pathHead (path ++ 47 :: rest))) (L.slots l) = some p := by rw [hhead]; exact hp'
    have hlen' : (pathHead (path ++ 47 :: rest)).length ≤ 63 := by rw [hhead]; exact hlen
    have hread := serveRead_sub_found D hgeo (.refl _) hS.root.chain hlen' htail hp₁ hlp hr
    have howns := hS.owns_entry hmem hlive
    rw [hdir] at howns
    cases k with
    | zero => exact absurd howns Layout.Owns.not_dir
    | succ k =>
      obtain ⟨lq, own', hd, -⟩ := Layout.Owns.dir_iff.mp howns
      obtain rfl := hlp.unique hd.chain
      obtain ⟨lr, hlr, -⟩ := hd.chain_of_find hr0 hr
      obtain ⟨-, msgs, hmsgs⟩ := sendLoop_congr D (.refl _) (.refl _) hlr (fun _ _ => ⟨rfl, rfl⟩)
        hlr.length_lt 0
      obtain ⟨hsend, -⟩ := sends_of_sendLoop D hread hmsgs
      have hnames : Names L (L.view (D.sectors s.disk)) l (path ++ 47 :: rest) :=
        ⟨by simp [h0, hr0], .inr ⟨p, hp₁, hdir⟩⟩
      have hno : L.Chain ((L.view (D.sectors s.disk)).overwritten p lp 0 0)
          (((L.view (D.sectors s.disk)).overwritten p lp 0 0).entry p).cluster [] := by
        rw [hentry]
        exact .of_not_link rfl
      exact not_sends_refused D (serveRead_sub_missing D (s := { s with disk := d' }) hgeo h' hl'
        hlen' htail hp₂ hno rfl) (hkept.reads _ _ hnames hsend)

/-- A write request that is answered 255 does no harm, unless the name exists and is left
unfinished. -/
theorem write_refused_harmless_iff (spawn : Mem → ℕ → Option ℕ) {req : Request}
    (hgeo : s.geo = L.toGeometry) (hc : L.Consistent (D.sectors s.disk) k l own)
    (htype : req.type = 2) (hroot : 47 ∉ req.path) (hfits : req.length ≤ 64) :
    (∀ s', serve D.toDevice spawn s req = some (.replied refused s') → Harmless D L l s s') ↔
      ¬ (req.path.length < req.length ∧ Unfinished L (L.view (D.sectors s.disk)) l req.path
        (req.length - (req.path.length + 1))) := by
  have hS := hc.sound
  by_cases hshort : req.length < req.path.length + 1
  · -- too short for its path: nothing is done
    have hres := serve_short D.toDevice spawn s htype hshort
    refine iff_of_true (fun s' hserve => ?_) fun h => Nat.not_lt.mpr h.1 hshort
    rw [hres] at hserve
    cases hserve
    exact harmless_of_agree hgeo hS (.refl _) fun _ _ => ⟨rfl, rfl⟩
  have hlong := Nat.not_lt.mp hshort
  have hreq := IsWrite.of_long htype hroot hlong hfits
  have h0 := req.path_no_zero
  generalize req.length - (req.path.length + 1) = len at hreq ⊢
  obtain ⟨b, d', V', hres, h', heffect⟩ := serve_write D spawn hgeo hreq (.refl _) hc.bounded hS
    (Layout.Sound.oneInSector hc.unique)
  constructor
  · rintro hall ⟨-, p, lp, hp, hend, hlp, hbad⟩
    have hroom : 0 < len → (L.view (D.sectors s.disk)).firstFree L ≠ none := by
      intro hpos
      rcases hbad with ⟨-, hf⟩ | ⟨hlen, -⟩
      · exact hf
      · omega
    obtain ⟨rfl, start, lnew, V₁, hs, rfl⟩ := heffect.isRefused hp hlp hend hroom
    have hharm := hall _ hres
    rcases hbad with ⟨hpos, -⟩ | ⟨rfl, hlost⟩
    · have hno := hharm.noDangling
      rw [show L.view (D.sectors d') = _ from h'.view_eq] at hno
      exact not_harmless_of_data hS hp hlp hs hpos hno
    · cases hs with
      | none =>
        rw [Volume.free_nil] at h'
        exact not_harmless_of_emptied hgeo hS hroot h0 (by omega) hp hlp h' hlost hharm
      | some hpos => cases hpos
  · intro hgood s' hserve
    rw [hres] at hserve
    cases heffect with
    | overwritten => cases hserve
    | added => cases hserve
    | noSpace hlen hf =>
      cases hserve
      exact harmless_of_agree hgeo hS h' fun _ _ => ⟨rfl, rfl⟩
    | full hn hfull hs =>
      cases hserve
      apply harmless_of_agree hgeo hS h'
      intro c hc
      rw [hs.free_fat]
      exact ⟨rfl, (hs.agree c (hS.owns.used c hc).2).2⟩
    | @refused p lp start lnew V₁ hp hlp hend hs =>
      cases hserve
      cases hs with
      | some hpos hf =>
        exact absurd ⟨hlong, p, lp, hp, hend, hlp,
          .inl ⟨hpos, by rw [hf]; exact Option.some_ne_none _⟩⟩ hgood
      | none =>
        rw [Volume.free_nil] at h'
        apply harmless_emptied hgeo hS hp hlp h'
        · intro hsize
          by_contra hne
          exact hgood ⟨hlong, p, lp, hp, hend, hlp, .inr ⟨rfl, .inl ⟨hsize, hne⟩⟩⟩
        · intro hdir rest hr0
          by_contra hsome
          exact hgood ⟨hlong, p, lp, hp, hend, hlp, .inr ⟨rfl, .inr ⟨hdir, rest, hr0, hsome⟩⟩⟩

/-- A request for an empty file, which an end mark follows. -/
private theorem sample_refused {n len : ℕ} {name : UInt8} {p : Slot} (hn : n ≤ 16)
    (hreq : IsWrite (writeRequest [name] (fun _ => 7) len) [name] len)
    (hp : (sampleVolume n).find (to83 [name]) (sampleLayout.slots [2]) = some p)
    (hend : (sampleVolume n).endsAfter p = true)
    (hlp : sampleLayout.Chain (sampleVolume n) ((sampleVolume n).entry p).cluster [])
    (hroom : (sampleVolume n).firstFree sampleLayout ≠ none) :
    ∃ d' start lnew V₁, serve arrayDisk.toDevice (fun _ _ => none) (sampleServer n)
        (writeRequest [name] (fun _ => 7) len) =
          some (.replied refused { sampleServer n with disk := d' }) ∧
      Stored sampleLayout (sampleVolume n) ((writeRequest [name] (fun _ => 7) len).contents [name])
        len start lnew V₁ ∧
      sampleLayout.Holds (sampleServer n).disk d' ((V₁.overwritten p [] start len).free lnew) := by
  have hc := sampleServer_consistent hn
  obtain ⟨b, d', V', hres, h', heffect⟩ := serve_write arrayDisk (fun _ _ => none)
    (s := sampleServer n) rfl hreq (.refl _) hc.bounded hc.sound
    (Layout.Sound.oneInSector hc.unique)
  obtain ⟨rfl, start, lnew, V₁, hs, rfl⟩ := heffect.isRefused hp hlp hend fun _ => hroom
  exact ⟨d', start, lnew, V₁, hres, hs, h'⟩

/-- The second of two empty files is to stay empty. -/
theorem write_refused_harmless_sample :
    ¬ Unfinished sampleLayout (sampleVolume 2) [2] [66] 0 ∧
    ∃ s', serve arrayDisk.toDevice (fun _ _ => none) (sampleServer 2)
        (writeRequest [66] (fun _ => 7) 0) = some (.replied refused s') ∧
      Harmless arrayDisk sampleLayout [2] (sampleServer 2) s' := by
  obtain ⟨hp, hend, hsize, hdir, hlink, hroom⟩ :
      (sampleVolume 2).find (to83 [66]) (sampleLayout.slots [2]) = some ⟨2, 0, 1⟩ ∧
      (sampleVolume 2).endsAfter ⟨2, 0, 1⟩ = true ∧ ((sampleVolume 2).entry ⟨2, 0, 1⟩).size = 0 ∧
      ((sampleVolume 2).entry ⟨2, 0, 1⟩).isDir = false ∧
      isLink ((sampleVolume 2).entry ⟨2, 0, 1⟩).cluster = false ∧
      (sampleVolume 2).firstFree sampleLayout ≠ none := by decide +kernel
  have hgood : ¬ Unfinished sampleLayout (sampleVolume 2) [2] [66] 0 := by
    rintro ⟨q, lq, hq, -, -, ⟨hpos, -⟩ | ⟨-, ⟨hpos, -⟩ | ⟨hd, -⟩⟩⟩
    · cases hpos
    · obtain rfl := Option.some.inj (hp.symm.trans hq)
      rw [hsize] at hpos
      cases hpos
    · obtain rfl := Option.some.inj (hp.symm.trans hq)
      rw [hdir] at hd
      cases hd
  have hreq : IsWrite (writeRequest [66] (fun _ => 7) 0) [66] 0 :=
    (writeRequest_spec _ (by decide) (by decide) (by decide)).1
  obtain ⟨d', -, -, -, hres, -⟩ :=
    sample_refused (by decide) hreq hp hend (.of_not_link hlink) hroom
  refine ⟨hgood, _, hres, (write_refused_harmless_iff (D := arrayDisk) (s := sampleServer 2)
    (fun _ _ => none) rfl (sampleServer_consistent (n := 2) (by decide)) hreq.type
    (by rw [hreq.path_eq]; decide) hreq.fits).mpr ?_ _ hres⟩
  rw [hreq.path_eq, hreq.length]
  exact fun h => hgood h.2

/-- Data for the only file: the request is refused, and the entry leads to a free cluster. -/
theorem write_refused_dangling :
    sampleLayout.Consistent (sampleServer 1).disk 0 [2] (fun _ => ∅) ∧
    IsWrite (writeRequest [65] (fun _ => 7) 1) [65] 1 ∧
    ∃ s', serve arrayDisk.toDevice (fun _ _ => none) (sampleServer 1)
        (writeRequest [65] (fun _ => 7) 1) = some (.replied refused s') ∧
      ¬ sampleLayout.NoDangling (sampleLayout.view s'.disk) := by
  have hc := sampleServer_consistent (n := 1) (by decide)
  have hp : (sampleVolume 1).find (to83 [65]) (sampleLayout.slots [2]) = some ⟨2, 0, 0⟩ := by
    decide +kernel
  have hlp : sampleLayout.Chain (sampleVolume 1) ((sampleVolume 1).entry ⟨2, 0, 0⟩).cluster [] :=
    .of_not_link (by decide +kernel)
  have hreq : IsWrite (writeRequest [65] (fun _ => 7) 1) [65] 1 :=
    (writeRequest_spec _ (by decide) (by decide) (by decide)).1
  obtain ⟨d', start, lnew, V₁, hres, hs, h'⟩ :=
    sample_refused (by decide) hreq hp (by decide +kernel) hlp (by decide +kernel)
  refine ⟨hc, hreq, _, hres, ?_⟩
  rw [show sampleLayout.view d' = _ from h'.view_eq]
  exact not_harmless_of_data hc.sound hp hlp hs Nat.one_pos

end Main

end Mukrn.Fat32
