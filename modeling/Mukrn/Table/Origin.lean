import Mukrn.Table.Identity
import Mukrn.Table.Mailbox

/-! Who sends messages: no task can pretend to be the kernel or another task. -/
namespace Mukrn

/-- A scan code of the keyboard interrupt, or a message with the pid of a slot in use. -/
def Genuine (s : Kernel) (m : Message) : Prop :=
  (m.sender = 0 ∧ m.type = 0 ∧ m.bytes.length = 1) ∨ ∃ j < s.numTasks, (s.tasks j).pid = m.sender

variable {x : System}

theorem Reachable.pid_given (hx : Reachable x) {j : ℕ} (hj : j < x.kernel.numTasks) :
    (x.kernel.tasks j).pid = 1 ∨ 7 < (x.kernel.tasks j).pid := by
  rcases hx.indexed.1 with ⟨-, h0⟩ | ⟨-, hn⟩
  · omega
  · rw [hn.pid j hj]
    split <;> omega

theorem Log.serve_accepted {g : Log} {s : Kernel} {c i : ℕ} {q : Request} {m : Message}
    (hs : Scheduled s c) (hm : m ∈ (g.serve s q).accepted i) :
    m ∈ g.accepted i ∨ Genuine s m := by
  have hput {d : Option (ℕ × Message)}
      (hm : m ∈ ((d.map fun p => g.accept p.1 p.2).getD g).accepted i) :
      m ∈ g.accepted i ∨ d = some (i, m) := by
    rcases d with - | ⟨j, m'⟩
    · exact .inl hm
    · by_cases hi : i = j
      · subst hi
        simpa [Log.accept, eq_comm] using hm
      · exact .inl (by simpa [Log.accept, hi] using hm)
  unfold Log.serve at hm
  split at hm
  · split at hm
    · refine (hput hm).imp_right fun hd => ?_
      obtain ⟨k, -, hd⟩ := Option.bind_eq_some_iff.mp hd
      split at hd <;> cases hd
      exact .inl ⟨rfl, rfl, rfl⟩
    · exact .inl hm
  · refine (hput hm).imp_right fun hd => ?_
    obtain ⟨res, -, hd⟩ := Option.bind_eq_some_iff.mp hd
    split at hd
    · obtain ⟨k, -, hd⟩ := Option.bind_eq_some_iff.mp hd
      obtain ⟨bytes, -, hd⟩ := Option.map_eq_some_iff.mp hd
      cases hd
      exact .inr ⟨c, hs.lt, by simp only [Kernel.currentPid, hs.current]⟩
    · cases hd
  · left
    cases hr : reception s _ <;> rw [hr] at hm <;> exact hm
  · exact .inl hm

theorem Reachable.genuine_log (hx : Reachable x) :
    ∃ g, MailInv x.kernel g ∧ ∀ i, ∀ m ∈ g.accepted i, Genuine x.kernel m := by
  obtain ⟨cfg, x0, hk, hr⟩ := hx
  induction hr with
  | refl =>
    obtain ⟨s, hs, rfl, -⟩ := kmain_created hk
    refine ⟨.empty, ?_, fun i m hm => by cases hm⟩
    by_cases hn : s.numTasks = 0
    · rw [schedulerStart, if_pos hn]
      exact hs.mailInv
    · exact hs.mailInv.start (Nat.pos_of_ne_zero hn)
  | @tail t u i hr _ hu ih =>
    obtain ⟨g, hg, hgen⟩ := ih
    have ht : Reachable t := ⟨cfg, x0, hk, hr⟩
    rcases ht.indexed.1 with ⟨hp, -⟩ | ⟨⟨c, hc⟩, -⟩
    · rw [step_stopped hp] at hu
      cases hu
    · refine ⟨g.record t i u, hg.step hc.current hu, fun j m hm => ?_⟩
      have hserve : m ∈ (g.serve t.kernel i.request).accepted j := by
        simp only [Log.record] at hm
        split at hm
        · simp only [Log.forget, Function.update_apply] at hm
          split at hm
          · cases hm
          · exact hm
        · exact hm
      -- Slots in use keep their pids.
      refine ((Log.serve_accepted hc hserve).elim (hgen j m) id).imp_right ?_
      rintro ⟨k, hk, hpid⟩
      obtain ⟨hku, hid⟩ := step_slot hu hc.current hk
      exact ⟨k, hku, (congrArg Prod.fst hid).trans hpid⟩

theorem Reachable.genuine (hx : Reachable x) (i : ℕ) :
    ∀ m ∈ (x.kernel.tasks i).mailbox, Genuine x.kernel m := by
  obtain ⟨g, hg, hgen⟩ := hx.genuine_log
  intro m hm
  apply hgen i m
  rw [← (hg i).2]
  exact List.mem_append_right _ hm

/-- Every waiting message is genuine. The shell and the command, serial and file servers rely on the
pids 4, 3, 5 and 7, which no task ever has: a send to them fails. -/
theorem senders_genuine (hx : Reachable x) :
    (∀ i, ∀ m ∈ (x.kernel.tasks i).mailbox, Genuine x.kernel m) ∧
    ∀ pid, 1 < pid → pid ≤ 7 → (∀ j < x.kernel.numTasks, (x.kernel.tasks j).pid ≠ pid) ∧
      ∀ type data len, sysSend x.kernel pid type data len = some (-1, x.kernel) := by
  refine ⟨hx.genuine, fun pid h1 h7 => ?_⟩
  have hno : ∀ j < x.kernel.numTasks, (x.kernel.tasks j).pid ≠ pid := by
    intro j hj
    have hpid := hx.pid_given hj
    omega
  refine ⟨hno, fun type data len => ?_⟩
  cases hf : x.kernel.findLive pid with
  | none => simp only [sysSend, hf]
  | some j =>
    obtain ⟨hj, hp, -⟩ := Kernel.findLive_spec hf
    exact absurd hp (hno j hj)

theorem senders_genuine_sample : ∃ x, Reachable x ∧
    sysSend x.kernel 7 0 0 0 = some (-1, x.kernel) := by
  obtain ⟨x, r, use, fl, hk, -⟩ := sample_started
  have hx : Reachable x := ⟨_, x, hk, .refl⟩
  exact ⟨x, hx, ((senders_genuine hx).2 7 (by decide) le_rfl).2 0 0 0⟩

end Mukrn
