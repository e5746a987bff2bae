import Mukrn.Fat32.Tree

/-! Which chain a cluster is on. Chains start at the root directory and at the entries that can be
reached from it. -/
namespace Mukrn.Fat32

/-- The entries of the directory that starts at `s` and of the directories below it. -/
inductive Layout.Under (L : Layout) (V : Volume) : ℕ → Slot → Prop
  | here {s : ℕ} {l : List ℕ} {p : Slot} (hl : L.Chain V s l) (hp : p ∈ V.active (L.slots l))
      (howner : (V.entry p).isOwner = true) : Under L V s p
  | deeper {s : ℕ} {l : List ℕ} {p q : Slot} (hl : L.Chain V s l) (hp : p ∈ V.active (L.slots l))
      (howner : (V.entry p).isOwner = true) (hdir : (V.entry p).isDir = true)
      (h : Under L V (V.entry p).cluster q) : Under L V s q

theorem Layout.Under.chain {L : Layout} {V : Volume} {s : ℕ} {q : Slot} (h : L.Under V s q) :
    ∃ l, L.Chain V s l := by
  cases h with
  | here hl => exact ⟨_, hl⟩
  | deeper hl => exact ⟨_, hl⟩

/-- The cluster is on the chain of the root directory, or on that of an entry. -/
def Layout.OnChain (L : Layout) (V : Volume) (o : Option Slot) (c : ℕ) : Prop :=
  match o with
  | none => ∃ l, L.Chain V L.rootCluster l ∧ c ∈ l
  | some q => L.Under V L.rootCluster q ∧ ∃ l, L.Chain V (V.entry q).cluster l ∧ c ∈ l

/-- Every cluster in use is on exactly one chain. -/
def Layout.ExactlyOne (L : Layout) (V : Volume) : Prop :=
  ∀ c, L.IsCluster c → V.fat c ≠ 0 → ∃! o, L.OnChain V o c

namespace Layout.Chain

variable {L : Layout} {V : Volume} {s a : ℕ} {l : List ℕ}

/-- A chain goes on where a link leads to. -/
theorem next_mem (h : L.Chain V s l) (ha : a ∈ l) (hlink : isLink (V.fat a) = true) :
    V.fat a ∈ l := by
  induction l generalizing s with
  | nil => cases ha
  | cons b l ih =>
    obtain ⟨-, -, -, ht⟩ := cons_iff.mp h
    rcases List.mem_cons.mp ha with rfl | ha
    · cases l with
      | nil =>
        rw [ht.not_link] at hlink
        cases hlink
      | cons c l =>
        rw [(cons_iff.mp ht).1]
        simp
    · exact List.mem_cons_of_mem _ (ih ht ha)

/-- A cluster of a chain is its first one, or a link leads to it. -/
theorem eq_or_pred (h : L.Chain V s l) (ha : a ∈ l) : a = s ∨ ∃ b ∈ l, V.fat b = a := by
  induction l generalizing s with
  | nil => cases ha
  | cons b l ih =>
    obtain ⟨rfl, -, -, ht⟩ := cons_iff.mp h
    rcases List.mem_cons.mp ha with rfl | ha
    · exact .inl rfl
    · rcases ih ht ha with heq | ⟨b, hb, heq⟩
      · exact .inr ⟨s, by simp, heq.symm⟩
      · exact .inr ⟨b, List.mem_cons_of_mem _ hb, heq⟩

/-- The rest of a chain from one of its clusters on. -/
theorem from_mem (h : L.Chain V s l) (ha : a ∈ l) : ∃ l', L.Chain V a l' ∧ a ∈ l' := by
  induction l generalizing s with
  | nil => cases ha
  | cons b l ih =>
    obtain ⟨rfl, -, -, ht⟩ := cons_iff.mp h
    rcases List.mem_cons.mp ha with rfl | ha
    · exact ⟨_, h, by simp⟩
    · exact ih ht ha

end Layout.Chain

/-- The clusters of an entry and of what is below it, where an entry without a chain has none. -/
def Layout.Spans (L : Layout) (V : Volume) : ℕ → Bool → ℕ → Set ℕ → Prop
  | 0 => fun isDir s M =>
    (∀ l, ¬ L.Chain V s l) ∧ M = ∅ ∨ isDir = false ∧ ∃ l, L.Chain V s l ∧ M = {c | c ∈ l}
  | k + 1 => fun isDir s M =>
    (∀ l, ¬ L.Chain V s l) ∧ M = ∅ ∨
      if isDir then ∃ l own, L.Dir V (L.Spans V k) s l own ∧ M = allOf l own
      else ∃ l, L.Chain V s l ∧ M = {c | c ∈ l}

namespace Layout.Spans

variable {L : Layout} {V : Volume} {k j s c : ℕ} {isDir : Bool} {M : Set ℕ} {l lc : List ℕ}
  {own : Slot → Set ℕ} {p q : Slot}

theorem lost (h : ∀ l, ¬ L.Chain V s l) : L.Spans V k isDir s ∅ := by
  cases k <;> exact .inl ⟨h, rfl⟩

theorem file (h : L.Chain V s l) : L.Spans V k false s {c | c ∈ l} := by
  cases k with
  | zero => exact .inr ⟨rfl, l, h, rfl⟩
  | succ k => exact .inr ⟨l, h, rfl⟩

theorem dir (h : L.Dir V (L.Spans V k) s l own) : L.Spans V (k + 1) true s (allOf l own) :=
  .inr ⟨l, own, h, rfl⟩

/-- With a chain an entry has the clusters of a file or of a directory. -/
theorem cases_of_chain (h : L.Spans V k isDir s M) (hl : L.Chain V s l) :
    isDir = false ∧ M = {c | c ∈ l} ∨
      isDir = true ∧ ∃ j own, k = j + 1 ∧ L.Dir V (L.Spans V j) s l own ∧ M = allOf l own := by
  cases k with
  | zero =>
    rcases h with ⟨hno, -⟩ | ⟨hfile, l', hl', hM⟩
    · exact absurd hl (hno l)
    · obtain rfl := hl.unique hl'
      exact .inl ⟨hfile, hM⟩
  | succ k =>
    rcases h with ⟨hno, -⟩ | h
    · exact absurd hl (hno l)
    · cases isDir with
      | false =>
        obtain ⟨l', hl', hM⟩ := h
        obtain rfl := hl.unique hl'
        exact .inl ⟨rfl, hM⟩
      | true =>
        obtain ⟨l', own, hd, hM⟩ := h
        obtain rfl := hl.unique hd.chain
        exact .inr ⟨rfl, k, own, rfl, hd, hM⟩

/-- The chain of an entry is among its clusters. -/
theorem chain_subset (h : L.Spans V k isDir s M) (hl : L.Chain V s l) : ∀ c ∈ l, c ∈ M := by
  rcases h.cases_of_chain hl with ⟨-, rfl⟩ | ⟨-, j, own, -, -, rfl⟩
  · exact fun c hc => hc
  · exact fun c hc => .inl hc

/-- The slot and the chain of an entry below a directory are among the clusters of the directory,
and the chain is apart from the directory's own. -/
theorem under_mem (h : L.Spans V k true s M) (hq : L.Under V s q) (hl : L.Chain V s l) :
    q.cluster ∈ M ∧ ∀ lc, L.Chain V (V.entry q).cluster lc → ∀ c ∈ lc, c ∈ M ∧ c ∉ l := by
  induction hq generalizing k M l with
  | @here s l' p hl' hp howner =>
    obtain rfl := hl.unique hl'
    rcases h.cases_of_chain hl with ⟨hfile, -⟩ | ⟨-, j, own, rfl, hd, rfl⟩
    · cases hfile
    refine ⟨.inl (mem_slots.mp (Volume.mem_of_active hp)).1, fun lc hlc c hc => ?_⟩
    have hown := (hd.owner p hp howner).chain_subset hlc c hc
    exact ⟨.inr (Set.mem_iUnion.mpr ⟨p, hown⟩), fun hcl => hd.apart p c hcl hown⟩
  | @deeper s l' p q hl' hp howner hdir hq ih =>
    obtain rfl := hl.unique hl'
    rcases h.cases_of_chain hl with ⟨hfile, -⟩ | ⟨-, j, own, rfl, hd, rfl⟩
    · cases hfile
    have hspan := hd.owner p hp howner
    rw [hdir] at hspan
    obtain ⟨lp, hlp⟩ := hq.chain
    obtain ⟨hslot, hsub⟩ := ih hspan hlp
    refine ⟨.inr (Set.mem_iUnion.mpr ⟨p, hslot⟩), fun lc hlc c hc => ?_⟩
    have hown := (hsub lc hlc c hc).1
    exact ⟨.inr (Set.mem_iUnion.mpr ⟨p, hown⟩), fun hcl => hd.apart p c hcl hown⟩

/-- Every cluster of an entry is on its chain or on the chain of an entry below it. -/
theorem exists_chain (h : L.Spans V k isDir s M) (hc : c ∈ M) :
    (∃ l, L.Chain V s l ∧ c ∈ l) ∨
      isDir = true ∧ ∃ q, L.Under V s q ∧ ∃ l, L.Chain V (V.entry q).cluster l ∧ c ∈ l := by
  induction k generalizing isDir s M with
  | zero =>
    rcases h with ⟨-, rfl⟩ | ⟨-, l, hl, rfl⟩
    · cases hc
    · exact .inl ⟨l, hl, hc⟩
  | succ k ih =>
    rcases h with ⟨-, rfl⟩ | h
    · cases hc
    cases isDir with
    | false =>
      obtain ⟨l, hl, rfl⟩ := h
      exact .inl ⟨l, hl, hc⟩
    | true =>
      obtain ⟨l, own, hd, rfl⟩ := h
      rcases hc with hc | hc
      · exact .inl ⟨l, hd.chain, hc⟩
      · obtain ⟨p, hp⟩ := Set.mem_iUnion.mp hc
        by_cases hact : p ∈ V.active (L.slots l) ∧ (V.entry p).isOwner = true
        · refine .inr ⟨rfl, ?_⟩
          rcases ih (hd.owner p hact.1 hact.2) hp with ⟨lp, hlp, hcl⟩ | ⟨hdir, q, hq, lq, hlq, hcl⟩
          · exact ⟨p, .here hd.chain hact.1 hact.2, lp, hlp, hcl⟩
          · exact ⟨q, .deeper hd.chain hact.1 hact.2 hdir hq, lq, hlq, hcl⟩
        · rw [hd.other p hact] at hp
          cases hp

/-- No cluster is on the chains of two entries below a directory. -/
theorem under_unique (h : L.Spans V k true s M) {q' : Slot} {lq lq' : List ℕ}
    (hq : L.Under V s q) (hq' : L.Under V s q') (hlq : L.Chain V (V.entry q).cluster lq)
    (hlq' : L.Chain V (V.entry q').cluster lq') (hc : c ∈ lq) (hc' : c ∈ lq') : q = q' := by
  induction k generalizing s M with
  | zero =>
    obtain ⟨l, hl⟩ := hq.chain
    rcases h.cases_of_chain hl with ⟨hfile, -⟩ | ⟨-, j, -, hj, -⟩
    · cases hfile
    · cases hj
  | succ k ih =>
    obtain ⟨l, hl⟩ := hq.chain
    rcases h.cases_of_chain hl with ⟨hfile, -⟩ | ⟨-, j, own, hj, hd, -⟩
    · cases hfile
    obtain rfl := Nat.succ.inj hj
    -- each of the two is an entry of the directory or below one, which has the cluster
    have htop {r : Slot} {lr : List ℕ} (hr : L.Under V s r)
        (hlr : L.Chain V (V.entry r).cluster lr) (hcr : c ∈ lr) :
        ∃ p, p ∈ V.active (L.slots l) ∧ (V.entry p).isOwner = true ∧ c ∈ own p ∧
          (r = p ∨ (V.entry p).isDir = true ∧ L.Under V (V.entry p).cluster r ∧
            ∀ lp, L.Chain V (V.entry p).cluster lp → c ∉ lp) := by
      cases hr with
      | here hl' hp howner =>
        obtain rfl := hl.unique hl'
        exact ⟨r, hp, howner, (hd.owner r hp howner).chain_subset hlr c hcr, .inl rfl⟩
      | @deeper _ _ p _ hl' hp howner hdir hr =>
        obtain rfl := hl.unique hl'
        have hspan := hd.owner p hp howner
        rw [hdir] at hspan
        obtain ⟨lp, hlp⟩ := hr.chain
        refine ⟨p, hp, howner, ((hspan.under_mem hr hlp).2 lr hlr c hcr).1, .inr ⟨hdir, hr, ?_⟩⟩
        intro lp' hlp'
        exact ((hspan.under_mem hr hlp').2 lr hlr c hcr).2
    obtain ⟨p, hp, howner, hcp, hqp⟩ := htop hq hlq hc
    obtain ⟨p', hp', howner', hcp', hqp'⟩ := htop hq' hlq' hc'
    obtain rfl : p = p' := by
      by_contra hne
      exact Set.disjoint_left.mp (hd.disjoint p p' hne) hcp hcp'
    rcases hqp with rfl | ⟨hdir, hu, hout⟩ <;> rcases hqp' with rfl | ⟨hdir', hu', hout'⟩
    · rfl
    · exact absurd hc (hout' lq hlq)
    · exact absurd hc' (hout lq' hlq')
    · have hspan := hd.owner p hp howner
      rw [hdir] at hspan
      exact ih hspan hu hu'

end Layout.Spans

section ExactlyOne

variable {L : Layout} {V : Volume} {k c : ℕ} {M : Set ℕ} {l : List ℕ} {own : Slot → Set ℕ}
  {o : Option Slot}

/-- The clusters on chains are those that the root directory spans. -/
theorem Layout.Spans.onChain_iff (h : L.Spans V k true L.rootCluster M)
    (hl : L.Chain V L.rootCluster l) : (∃ o, L.OnChain V o c) ↔ c ∈ M := by
  constructor
  · rintro ⟨o, ho⟩
    cases o with
    | none =>
      obtain ⟨l', hl', hc⟩ := ho
      exact h.chain_subset hl' c hc
    | some q =>
      obtain ⟨hq, lq, hlq, hc⟩ := ho
      exact ((h.under_mem hq hl).2 lq hlq c hc).1
  · intro hc
    rcases h.exists_chain hc with ho | ⟨-, q, hq, ho⟩
    · exact ⟨none, ho⟩
    · exact ⟨some q, hq, ho⟩

theorem Layout.Spans.onChain_unique (h : L.Spans V k true L.rootCluster M)
    (hl : L.Chain V L.rootCluster l) {o' : Option Slot} (ho : L.OnChain V o c)
    (ho' : L.OnChain V o' c) : o = o' := by
  cases o with
  | none =>
    obtain ⟨l', hl', hc⟩ := ho
    obtain rfl := hl.unique hl'
    cases o' with
    | none => rfl
    | some q =>
      obtain ⟨hq, lq, hlq, hcq⟩ := ho'
      exact absurd hc ((h.under_mem hq hl).2 lq hlq c hcq).2
  | some q =>
    obtain ⟨hq, lq, hlq, hcq⟩ := ho
    cases o' with
    | none =>
      obtain ⟨l', hl', hc⟩ := ho'
      obtain rfl := hl.unique hl'
      exact absurd hc ((h.under_mem hq hl).2 lq hlq c hcq).2
    | some q' =>
      obtain ⟨hq', lq', hlq', hcq'⟩ := ho'
      rw [h.under_unique hq hq' hlq hlq' hcq hcq']

/-- When nothing is linked twice, it remains that nothing is lost. -/
theorem Layout.Spans.exactlyOne_iff (h : L.Spans V k true L.rootCluster M)
    (hl : L.Chain V L.rootCluster l) :
    L.ExactlyOne V ↔ ∀ c, L.IsCluster c → V.fat c ≠ 0 → c ∈ M := by
  constructor
  · intro hone c hcl hused
    exact (h.onChain_iff hl).mp (hone c hcl hused).exists
  · intro hcover c hcl hused
    obtain ⟨o, ho⟩ := (h.onChain_iff hl).mpr (hcover c hcl hused)
    exact ⟨o, ho, fun o' ho' => h.onChain_unique hl ho' ho⟩

end ExactlyOne

namespace Layout.Owns

variable {L : Layout} {V : Volume} {k s : ℕ} {isDir : Bool} {M : Set ℕ}

/-- What an entry owns is what it spans, also looked at more deeply. -/
theorem spans (h : L.Owns V k isDir s M) {j : ℕ} (hj : k ≤ j) : L.Spans V j isDir s M := by
  induction k generalizing isDir s M j with
  | zero =>
    obtain ⟨rfl, l, hl, rfl⟩ := h
    exact .file hl
  | succ k ih =>
    cases isDir with
    | false =>
      obtain ⟨l, hl, rfl⟩ := file_iff.mp h
      exact .file hl
    | true =>
      obtain ⟨l, own, hd, rfl⟩ := dir_iff.mp h
      obtain ⟨j, rfl⟩ : ∃ i, j = i + 1 := Nat.exists_eq_succ_of_ne_zero (by omega)
      refine .dir ⟨hd.chain, ?_, hd.other, hd.apart, hd.disjoint⟩
      exact fun p hp howner => ih (hd.owner p hp howner) (Nat.le_of_succ_le_succ hj)

end Layout.Owns

end Mukrn.Fat32
