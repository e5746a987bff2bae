import Mathlib.Data.List.Infix

/-! A sender and a receiver with a bounded queue between them. A message that finds the queue full
is lost, and the sender does not notice. -/
namespace LossyQueue

/-- Messages not sent yet, waiting, and received, oldest first. -/
structure State (α : Type*) where
  left : List α
  waiting : List α
  got : List α

inductive Turn where
  | send
  | recv
  deriving DecidableEq, Repr

variable {α : Type*} {cap : ℕ} {s : State α} {ms before : List α} {z : α}

def step (cap : ℕ) (s : State α) : Turn → State α
  | .send =>
    match s.left with
    | [] => s
    | m :: rest =>
      { s with
        left := rest
        waiting := if s.waiting.length < cap then s.waiting ++ [m] else s.waiting }
  | .recv =>
    match s.waiting with
    | [] => s
    | m :: rest => { s with waiting := rest, got := s.got ++ [m] }

def run (cap : ℕ) (s : State α) (turns : List Turn) : State α := turns.foldl (step cap) s

theorem run_append (cap : ℕ) (s : State α) (ts ts' : List Turn) :
    run cap s (ts ++ ts') = run cap (run cap s ts) ts' := List.foldl_append

/-- Before the last message none is lost: all are received, waiting or left. The last one may be. -/
def Kept (before ms : List α) (z : α) (s : State α) : Prop :=
  s.got ++ s.waiting ++ s.left = before ++ ms ++ [z] ∨
    s.left = [] ∧ s.got ++ s.waiting = before ++ ms

theorem Kept.step (h : Kept before ms z s) (hroom : before.length + ms.length ≤ cap) (t : Turn) :
    Kept before ms z (step cap s t) := by
  obtain ⟨left, waiting, got⟩ := s
  cases t with
  | recv =>
    cases waiting with
    | nil => exact h
    | cons m rest => simpa [Kept, LossyQueue.step] using h
  | send =>
    cases left with
    | nil => exact h
    | cons m rest =>
      have h := h.resolve_right fun hno => (by cases hno.1)
      simp only at h
      by_cases hfull : waiting.length < cap
      · left
        simp only [LossyQueue.step, if_pos hfull]
        rw [← h]
        simp
      · -- A full queue holds all messages but one, so that the last one is sent now.
        right
        have hlen := congrArg List.length h
        simp only [List.length_append, List.length_cons, List.length_nil] at hlen
        have hrest : rest = [] := List.eq_nil_of_length_eq_zero (by omega)
        subst hrest
        simp only [LossyQueue.step, if_neg hfull]
        exact ⟨trivial, (List.append_inj' h rfl).1⟩

theorem Kept.run (h : Kept before ms z s) (hroom : before.length + ms.length ≤ cap)
    (turns : List Turn) : Kept before ms z (run cap s turns) := by
  induction turns generalizing s with
  | nil => exact h
  | cons t turns ih => exact ih (h.step hroom t)

/-- What was received behind the messages that had been waiting. -/
theorem Kept.got_eq (h : Kept before ms z s) (hz : z ∉ ms) (hgot : z ∈ s.got.drop before.length) :
    s.got.drop before.length = ms ++ [z] := by
  have hlt : before.length < s.got.length := by
    by_contra hno
    rw [List.drop_eq_nil_of_le (Nat.not_lt.mp hno)] at hgot
    cases hgot
  rcases h with h | ⟨-, h⟩
  · have hdrop := congrArg (List.drop before.length) h
    rw [List.append_assoc, List.drop_append_of_le_length hlt.le, List.append_assoc,
      List.drop_left] at hdrop
    -- The last message stands only at the end.
    rcases List.append_eq_append_iff.mp hdrop with ⟨rest, hms, -⟩ | ⟨rest, hgot', hrest⟩
    · rw [hms] at hz
      exact absurd (List.mem_append_left _ hgot) hz
    · rw [hgot'] at hgot ⊢
      cases rest with
      | nil => exact absurd (by simpa using hgot) hz
      | cons r rest =>
        obtain ⟨rfl, hnil⟩ := List.cons.inj hrest
        rw [(List.append_eq_nil_iff.mp hnil.symm).1]
  · have hdrop := congrArg (List.drop before.length) h
    rw [List.drop_append_of_le_length hlt.le, List.drop_left] at hdrop
    rw [← hdrop] at hz
    exact absurd (List.mem_append_left _ hgot) hz

theorem run_sends (ms rest waiting got : List α) (hfit : waiting.length ≤ cap) :
    run cap ⟨ms ++ rest, waiting, got⟩ (List.replicate ms.length .send) =
      ⟨rest, (waiting ++ ms).take cap, got⟩ := by
  induction ms generalizing waiting with
  | nil => simp [run, List.take_of_length_le hfit]
  | cons m ms ih =>
    rw [List.length_cons, List.replicate_succ, run, List.foldl_cons]
    simp only [step, List.cons_append]
    by_cases hlt : waiting.length < cap
    · rw [if_pos hlt]
      refine (ih (waiting ++ [m]) (by rw [List.length_append]; exact hlt)).trans ?_
      simp
    · rw [if_neg hlt]
      refine (ih waiting hfit).trans ?_
      have heq : waiting.length = cap := by omega
      rw [List.take_append_of_le_length heq.ge, List.take_append_of_le_length heq.ge]

theorem run_recvs (left waiting got : List α) :
    run cap ⟨left, waiting, got⟩ (List.replicate waiting.length .recv) =
      ⟨left, [], got ++ waiting⟩ := by
  induction waiting generalizing got with
  | nil => simp [run]
  | cons m waiting ih =>
    rw [List.length_cons, List.replicate_succ, run, List.foldl_cons]
    refine (ih (got ++ [m])).trans ?_
    simp

/-- Whatever the order of turns, a receiver that gets the last message has got all before it,
exactly when all of them fit behind the messages that wait at the start. -/
theorem delivered_iff (hcap : 0 < cap) (hbefore : before.length ≤ cap) (hz : z ∉ ms) :
    (∀ turns, z ∈ (run cap ⟨ms ++ [z], before, []⟩ turns).got.drop before.length →
      (run cap ⟨ms ++ [z], before, []⟩ turns).got.drop before.length = ms ++ [z]) ↔
      before.length + ms.length ≤ cap := by
  constructor
  · intro hall
    by_contra hover
    -- All are sent before the first is taken out, and then the last one.
    have hrun : run cap ⟨ms ++ [z], before, []⟩ (List.replicate ms.length .send ++
        (List.replicate ((before ++ ms).take cap).length .recv ++ [.send, .recv])) =
          ⟨[], [], (before ++ ms).take cap ++ [z]⟩ := by
      rw [run_append, run_sends _ _ _ _ hbefore, run_append, run_recvs]
      simp [run, step, hcap]
    have htake : (before ++ ms).take cap = before ++ ms.take (cap - before.length) := by
      rw [List.take_append, List.take_of_length_le hbefore]
    have hgot := hall (List.replicate ms.length .send ++
      (List.replicate ((before ++ ms).take cap).length .recv ++ [.send, .recv]))
    rw [hrun, htake, List.append_assoc, List.drop_left] at hgot
    have hlen := congrArg List.length (hgot (by simp))
    simp only [List.length_append, List.length_take, List.length_singleton] at hlen
    omega
  · intro hroom turns
    have hstart : Kept before ms z ⟨ms ++ [z], before, []⟩ := .inl (by simp)
    exact (hstart.run hroom turns).got_eq hz

end LossyQueue
