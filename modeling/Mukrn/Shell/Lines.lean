import Mukrn.Shell.Protocol

/-! Lines of the shell in the buffer of the command server. The shell sends a line without a zero
behind it, and the server reads the buffer up to the first zero. -/
namespace Mukrn.Shell
open ByteMemory

/-- Characters that end no line. -/
def Plain (u : List UInt8) : Prop := ∀ c ∈ u, c ≠ code '\r' ∧ c ≠ code '\n'

/-- The characters of a line of at most 63 characters. -/
def Typed (line : List UInt8) : Prop := line.length ≤ 63 ∧ Plain line

/-- One round of the server for a line of the shell. An empty line is not sent. -/
def serveLine (shell : ℕ) (cmd resp : Buffer) (line : List UInt8) (incoming : List Message) :
    List Send × Status :=
  match lineMessage shell line with
  | none => ([], .idle incoming)
  | some m => serveMessage cmd resp m incoming

/-- The buffer after a line. Only receiving changes it. -/
def bufferAfter (shell : ℕ) (cmd : Buffer) (line : List UInt8) : Buffer :=
  match lineMessage shell line with
  | none => cmd
  | some m => cmd.deliver m

def bufferAfterAll (shell : ℕ) (cmd : Buffer) (lines : List (List UInt8)) : Buffer :=
  lines.foldl (bufferAfter shell) cmd

/-- What counts of a request: the data of `writefile`, and a path up to its zero. -/
def Send.visible (m : Send) : ℕ × List UInt8 :=
  (m.type, if m.type = 2 then m.data else m.data.takeWhile (· != 0))

/-- The request sent to the file server. -/
def sentRequest (out : List Send × Status) : Option (ℕ × List UInt8) :=
  (out.1.find? (·.pid == fat32Pid)).map Send.visible

/-- The type of the request of a command with a path, and where its argument starts. -/
def pathRequest : Command → Option (ℕ × ℕ)
  | .readfile => some (0, 9)
  | .spawn => some (1, 6)
  | .delete => some (3, 7)
  | .mkdir => some (4, 6)
  | .rmdir => some (5, 6)
  | _ => none

def argumentOffset (c : Command) : Option ℕ :=
  if c = .writefile then some 10 else (pathRequest c).map Prod.snd

/-- The lines whose request is their own, where `last` is the last byte of the buffer. A line
without an argument does not matter. The argument has to end with a zero in the line, or the line
fills the buffer up to the last byte, which no line reaches. A `writefile` of 62 characters that are
blank behind its name has no path. -/
def SelfContained (last : UInt8) (line : List UInt8) : Prop :=
  line ≠ [code 'r'] ∧ line ≠ [code 's'] ∧
  ∀ offset, argumentOffset (command line) = some offset →
    line.length = 63 ∨ 0 ∈ line.drop offset ∨
      command line = .writefile ∧ line.length = 62 ∧ (∀ c ∈ line.drop 10, c = code ' ') ∧
        last ≠ code ' '

section Strings

variable {α : Type} {p : α → Bool} {a : α}

theorem takeWhile_stop (h : p a = false) (x y : List α) :
    (x ++ a :: y).takeWhile p = x.takeWhile p := by
  induction x with
  | nil => simp [h]
  | cons b x ih =>
    rw [List.cons_append, List.takeWhile_cons, List.takeWhile_cons, ih]

theorem dropWhile_stop (h : p a = false) (x y : List α) :
    (x ++ a :: y).dropWhile p = x.dropWhile p ++ a :: y := by
  induction x with
  | nil => simp [h]
  | cons b x ih =>
    rw [List.cons_append, List.dropWhile_cons, List.dropWhile_cons, ih]
    split <;> rfl

end Strings

section Arguments

variable {x y : List UInt8} {c : UInt8}

/-- The string behind blanks. -/
def argument (s : List UInt8) : List UInt8 := (skipSpaces s).takeWhile (· != 0)

theorem skipSpaces_stop (hc : c ≠ code ' ') (x y : List UInt8) :
    skipSpaces (x ++ c :: y) = skipSpaces x ++ c :: y :=
  dropWhile_stop (by simpa using hc) x y

theorem not_mem_skipSpaces (h : 0 ∉ x) : 0 ∉ skipSpaces x :=
  fun hm => h ((List.dropWhile_suffix _).subset hm)

/-- A string does not depend on what is behind a zero. -/
theorem argument_zero (x y : List UInt8) :
    argument (x ++ 0 :: y) = (skipSpaces x).takeWhile (· != 0) := by
  rw [argument, skipSpaces_stop (by decide), takeWhile_stop (by decide)]

theorem argument_letter (hx : 0 ∉ x) (hc : c ≠ code ' ') (h0 : c ≠ 0) (y : List UInt8) :
    argument (x ++ c :: y) = skipSpaces x ++ c :: y.takeWhile (· != 0) := by
  have hall : ∀ b ∈ skipSpaces x, (b != 0) = true := by
    intro b hb
    have hne : b ≠ 0 := fun he => not_mem_skipSpaces hx (he ▸ hb)
    simpa using hne
  rw [argument, skipSpaces_stop hc, List.takeWhile_append_of_pos hall, List.takeWhile_cons,
    if_pos (by simpa using h0)]

theorem takeWhile_of_not_mem (hx : 0 ∉ x) : x.takeWhile (· != 0) = x := by
  rw [List.takeWhile_eq_self_iff]
  intro b hb
  have hne : b ≠ 0 := fun he => hx (he ▸ hb)
  simpa using hne

/-- The request for `writefile` with a path, the character behind it and the rest. -/
theorem writeData_split {path r : List UInt8} {sep : UInt8}
    (hs : skipSpaces x = path ++ sep :: r) (hpath : ∀ b ∈ path, endsPath b = false)
    (hsep : endsPath sep = true) :
    writeData x = if sep = 0 ∨ path = [] then none
      else some (path.take 50 ++ [0] ++
        (r.takeWhile (· != 0)).take (64 - (path.take 50 ++ [0]).length)) := by
  have hall : ∀ b ∈ path, (!endsPath b) = true := fun b hb => by rw [hpath b hb]; rfl
  have hstop : (!endsPath sep) = false := by rw [hsep]; rfl
  have htake : (path ++ sep :: r).takeWhile (!endsPath ·) = path := by
    rw [List.takeWhile_append_of_pos hall, List.takeWhile_cons, hstop]
    simp
  have hdrop : (path ++ sep :: r).dropWhile (!endsPath ·) = sep :: r := by
    rw [List.dropWhile_append_of_pos hall, List.dropWhile_cons, hstop]
    simp
  simp only [writeData, hs, htake, hdrop]

/-- Every string is a path, and what is behind it when a zero follows. -/
theorem exists_path (s : List UInt8) : ∃ path rest, s = path ++ rest ∧
    (∀ b ∈ path, endsPath b = false) ∧ ∀ sep tail, rest = sep :: tail → endsPath sep = true := by
  refine ⟨s.takeWhile (!endsPath ·), s.dropWhile (!endsPath ·),
    List.takeWhile_append_dropWhile.symm, fun b hb => ?_, fun sep tail hrest => ?_⟩
  · simpa using List.mem_takeWhile_imp hb
  · have hhead := List.head?_dropWhile_not (!endsPath ·) s
    rw [hrest] at hhead
    simpa using hhead

/-- What is behind a zero does not matter. -/
theorem writeData_zero (x y y' : List UInt8) :
    writeData (x ++ 0 :: y) = writeData (x ++ 0 :: y') := by
  have hskip (y : List UInt8) : skipSpaces (x ++ 0 :: y) = skipSpaces x ++ 0 :: y :=
    skipSpaces_stop (by decide) x y
  obtain ⟨path, rest, hs, hpath, hsep⟩ := exists_path (skipSpaces x)
  cases rest with
  | nil =>
    have hnone (y : List UInt8) : writeData (x ++ 0 :: y) = none := by
      rw [writeData_split ((hskip y).trans (by rw [hs, List.append_nil])) hpath (by decide),
        if_pos (.inl rfl)]
    rw [hnone, hnone]
  | cons sep rest =>
    have hsplit (y : List UInt8) := writeData_split (x := x ++ 0 :: y) (r := rest ++ 0 :: y)
      ((hskip y).trans (by rw [hs, List.append_assoc]; rfl)) hpath (hsep sep rest rfl)
    rw [hsplit, hsplit, takeWhile_stop (by decide), takeWhile_stop (by decide)]

theorem skipSpaces_head {r : List UInt8} (h : skipSpaces x = c :: r) : c ≠ code ' ' := by
  have hhead := List.head?_dropWhile_not (· == code ' ') x
  rw [← skipSpaces, h] at hhead
  simpa using hhead

theorem skipSpaces_append (h : skipSpaces x ≠ []) (y : List UInt8) :
    skipSpaces (x ++ y) = skipSpaces x ++ y := by
  rw [skipSpaces, List.dropWhile_append, ← skipSpaces, if_neg (by simpa using h)]

theorem skipSpaces_blank (h : skipSpaces x = []) (y : List UInt8) :
    skipSpaces (x ++ y) = skipSpaces y := by
  rw [skipSpaces, List.dropWhile_append, ← skipSpaces, h]
  rfl

theorem skipSpaces_eq_nil : skipSpaces x = [] ↔ ∀ b ∈ x, b = code ' ' := by
  simp [skipSpaces, List.dropWhile_eq_nil_iff]

/-- Without a blank behind the path the usage is shown. -/
theorem writeData_unended (h : ∀ b ∈ skipSpaces x, b ≠ code ' ') (y : List UInt8) :
    writeData (x ++ 0 :: y) = none := by
  have hskip : skipSpaces (x ++ 0 :: y) = skipSpaces x ++ 0 :: y := skipSpaces_stop (by decide) x y
  obtain ⟨path, rest, hs, hpath, hsep⟩ := exists_path (skipSpaces x)
  cases rest with
  | nil =>
    rw [writeData_split (hskip.trans (by rw [hs, List.append_nil])) hpath (by decide),
      if_pos (.inl rfl)]
  | cons sep rest =>
    have hends := hsep sep rest rfl
    have hblank := h sep (by rw [hs]; simp)
    have hzero : sep = 0 := by simpa [endsPath, hblank] using hends
    rw [writeData_split (hskip.trans (by rw [hs, List.append_assoc]; rfl)) hpath hends,
      if_pos (.inl hzero)]

/-- Arguments without a zero: what follows shows in the request. -/
theorem writeData_leaks (hx : 0 ∉ x) (hlen : x.length ≤ 52) (hne : skipSpaces x ≠ [])
    (y : List UInt8) : writeData (x ++ 0 :: y) ≠ writeData (x ++ code 'A' :: y) ∨
      writeData (x ++ 0 :: y) ≠ writeData (x ++ code ' ' :: y) := by
  obtain ⟨path, rest, hs, hpath, hsep⟩ := exists_path (skipSpaces x)
  have hle : (skipSpaces x).length ≤ x.length := (List.dropWhile_suffix _).length_le
  cases rest with
  | nil =>
    -- The path is not ended: a blank ends it, a zero shows the usage.
    right
    rw [List.append_nil] at hs
    have hnone : writeData (x ++ 0 :: y) = none := by
      apply writeData_unended
      intro b hb hblank
      rw [hs] at hb
      have hends := hpath b hb
      simp [endsPath, hblank] at hends
    rw [hnone, writeData_split ((skipSpaces_append hne _).trans (by rw [hs])) hpath (by decide),
      if_neg]
    · simp
    · rintro (h | h)
      · exact absurd h (by decide)
      · exact hne (hs.trans h)
  | cons sep rest =>
    -- The data has begun: it is longer by what follows.
    left
    have hends := hsep sep rest rfl
    have hzero : sep ≠ 0 := by
      intro he
      apply not_mem_skipSpaces hx
      rw [hs, he]
      simp
    have hblank : sep = code ' ' := by simpa [endsPath, hzero] using hends
    have hpne : path ≠ [] := by
      intro he
      rw [he, List.nil_append] at hs
      exact skipSpaces_head hs hblank
    have hrest : 0 ∉ rest := by
      intro hm
      apply not_mem_skipSpaces hx
      rw [hs]
      simp [hm]
    have hsplit (c : UInt8) := writeData_split (x := x ++ c :: y) (r := rest ++ c :: y)
      ((skipSpaces_append hne _).trans (by rw [hs, List.append_assoc]; rfl)) hpath hends
    have hall : ∀ b ∈ rest, (b != 0) = true := by
      intro b hb
      have hb0 : b ≠ 0 := fun he => hrest (he ▸ hb)
      simpa using hb0
    rw [hsplit, hsplit, if_neg (by simp [hzero, hpne]), if_neg (by simp [hzero, hpne]),
      takeWhile_stop (by decide), takeWhile_of_not_mem hrest, List.takeWhile_append_of_pos hall]
    intro heq
    have hlen' := congrArg List.length (Option.some.inj heq)
    rw [hs] at hle
    simp only [List.length_append, List.length_take, List.length_cons, List.length_nil,
      List.takeWhile_cons, (by decide : (code 'A' != 0) = true), if_true] at hlen' hle
    omega

/-- A path of one letter behind blanks. -/
theorem writeData_letter (hx : skipSpaces x = []) (y : List UInt8) :
    (writeData (x ++ code 'A' :: code ' ' :: y)).isSome = true := by
  have hs : skipSpaces (x ++ code 'A' :: code ' ' :: y) = [code 'A'] ++ code ' ' :: y := by
    rw [skipSpaces_stop (by decide), hx]
    rfl
  have hpath : ∀ b ∈ [code 'A'], endsPath b = false :=
    List.forall_mem_singleton.mpr (by decide)
  rw [writeData_split hs hpath (by decide), if_neg (by decide)]
  rfl

end Arguments

/-- The request for the text in the buffer. -/
def lineRequest (text : List UInt8) : Option (ℕ × List UInt8) :=
  if command text = .writefile then (writeData (text.drop 10)).map (2, ·)
  else (pathRequest (command text)).map fun r => (r.1, argument (text.drop r.2))

/-- The end of the buffer behind a line of `n` characters: its last byte and the length. -/
def bufferEnd (last : UInt8) (n : ℕ) : List UInt8 := last :: UInt8.ofNat n :: List.replicate 7 0

section Tails

variable {line u u' : List UInt8} {last : UInt8}

theorem command_append (hne : line ≠ []) (hr : line ≠ [code 'r']) (hs : line ≠ [code 's'])
    (w : List UInt8) : command (line ++ w) = command line := by
  cases line with
  | nil => exact absurd rfl hne
  | cons a line =>
    cases line with
    | nil =>
      have ha : a ≠ code 'r' := fun h => hr (by rw [h])
      have ha' : a ≠ code 's' := fun h => hs (by rw [h])
      simp [command, ha, ha']
    | cons b line => rfl

theorem pathRequest_offset {c : Command} {r : ℕ × ℕ} (h : pathRequest c = some r) :
    c ≠ .writefile ∧ argumentOffset c = some r.2 ∧ r.2 ≤ 10 := by
  cases c <;> simp only [pathRequest, Option.some.injEq, reduceCtorEq] at h <;> subst h <;> decide

/-- A line that is its own leaves nothing to the bytes behind it. -/
theorem lineRequest_eq (hne : line ≠ []) (h : SelfContained last line)
    (hu : u.length = 63 - line.length) (hu' : u'.length = 63 - line.length) :
    lineRequest (line ++ (u ++ bufferEnd last line.length)) =
      lineRequest (line ++ (u' ++ bufferEnd last line.length)) := by
  obtain ⟨hr, hs, harg⟩ := h
  have hdrop (o : ℕ) (w : List UInt8) : (line ++ w).drop o =
    line.drop o ++ w.drop (o - line.length) :=
    List.drop_append
  have hzero {o : ℕ} (h0 : 0 ∈ line.drop o) : ∃ x y, line.drop o = x ++ 0 :: y :=
    List.append_of_mem h0
  by_cases hfull : line.length = 63
  · rw [hfull] at hu hu'
    rw [List.eq_nil_of_length_eq_zero hu, List.eq_nil_of_length_eq_zero hu']
  · unfold lineRequest
    rw [command_append hne hr hs, command_append hne hr hs]
    split
    next hwrite =>
      congr 1
      rcases (harg 10 (by rw [hwrite]; rfl)).resolve_left hfull with h0 | ⟨-, h62, hblank, hlast⟩
      · obtain ⟨x, y, hxy⟩ := hzero h0
        rw [hdrop, hdrop, hxy, List.append_assoc, List.append_assoc]
        exact writeData_zero x _ _
      · -- One character is left, and no path behind the blanks can be ended by one.
        have hnone (w : List UInt8) (hw : w.length = 63 - line.length) :
            writeData ((line ++ (w ++ bufferEnd last line.length)).drop 10) = none := by
          obtain ⟨c, rfl⟩ := List.length_eq_one_iff.mp (hw.trans (by omega))
          have hb : UInt8.ofNat line.length = code '>' := by rw [h62]; rfl
          have heq : (line ++ ([c] ++ bufferEnd last line.length)).drop 10 =
              (line.drop 10 ++ [c, last, code '>']) ++ 0 :: List.replicate 6 0 := by
            rw [hdrop, bufferEnd, hb, h62]
            simp [List.replicate]
          rw [heq]
          apply writeData_unended
          rw [skipSpaces_blank (skipSpaces_eq_nil.mpr hblank)]
          by_cases hc : c = code ' '
          · have hskip : skipSpaces [c, last, code '>'] = [last, code '>'] := by
              simp [skipSpaces, hc, hlast]
            rw [hskip]
            intro b hbm
            rcases List.mem_cons.mp hbm with rfl | hbm
            · exact hlast
            · rw [List.mem_singleton.mp hbm]
              decide
          · have hskip : skipSpaces [c, last, code '>'] = [c, last, code '>'] := by
              simp [skipSpaces, hc]
            rw [hskip]
            intro b hbm
            rcases List.mem_cons.mp hbm with rfl | hbm
            · exact hc
            · rcases List.mem_cons.mp hbm with rfl | hbm
              · exact hlast
              · rw [List.mem_singleton.mp hbm]
                decide
        rw [hnone u hu, hnone u' hu']
    next hwrite =>
      cases hpath : pathRequest (command line) with
      | none => rfl
      | some r =>
        obtain ⟨-, hoff, -⟩ := pathRequest_offset hpath
        rcases (harg r.2 hoff).resolve_left hfull with h0 | ⟨hw, -⟩
        · obtain ⟨x, y, hxy⟩ := hzero h0
          simp only [Option.map_some, hdrop, hxy, List.append_assoc, List.cons_append,
            argument_zero]
        · exact absurd hw hwrite

/-- The line followed by one character over and over, from an offset on. -/
theorem drop_replicate {o : ℕ} (ho : o ≤ 10) (hn : line.length < 63) (c : UInt8)
    (z : List UInt8) : ∃ y, (line ++ (List.replicate (63 - line.length) c ++ z)).drop o =
      line.drop o ++ c :: y := by
  obtain ⟨k, hk⟩ : ∃ k, 63 - line.length - (o - line.length) = k + 1 :=
    Nat.exists_eq_succ_of_ne_zero (by omega)
  refine ⟨List.replicate k c ++ z, ?_⟩
  rw [List.drop_append, List.drop_append_of_le_length (by simp; omega), List.drop_replicate, hk]
  rfl

theorem plain_replicate {c : UInt8} (hc : c ≠ code '\r' ∧ c ≠ code '\n') (k : ℕ) :
    Plain (List.replicate k c) := by
  intro b hb
  rw [List.eq_of_mem_replicate hb]
  exact hc

/-- What is behind the line shows in its request. -/
def Leaks (last : UInt8) (line : List UInt8) : Prop :=
  ∃ u u', u.length = 63 - line.length ∧ u'.length = 63 - line.length ∧ Plain u ∧ Plain u' ∧
    lineRequest (line ++ (u ++ bufferEnd last line.length)) ≠
      lineRequest (line ++ (u' ++ bufferEnd last line.length))

theorem ne_of_isSome {α : Type} {a b : Option α} (ha : a = none) (hb : b.isSome = true) :
    a ≠ b := by
  rintro rfl
  rw [ha] at hb
  cases hb

/-- The second letter of the command is missing. -/
theorem leaks_letter {a c : UInt8} (hc : c ≠ code '\r' ∧ c ≠ code '\n')
    (h0 : ∀ z, lineRequest (a :: 0 :: z) = none)
    (h1 : ∀ z, (lineRequest (a :: c :: z)).isSome = true) : Leaks last [a] :=
  ⟨List.replicate 62 0, List.replicate 62 c, rfl, rfl, plain_replicate (by decide) _,
    plain_replicate hc _, ne_of_isSome (h0 _) (h1 _)⟩

theorem leaks_path {r : ℕ × ℕ} (hne : line ≠ []) (hr : line ≠ [code 'r']) (hs : line ≠ [code 's'])
    (hpath : pathRequest (command line) = some r) (hn : line.length < 63)
    (h0 : 0 ∉ line.drop r.2) : Leaks last line := by
  obtain ⟨hwrite, -, ho⟩ := pathRequest_offset hpath
  refine ⟨List.replicate _ 0, List.replicate _ (code 'A'), List.length_replicate,
    List.length_replicate, plain_replicate (by decide) _, plain_replicate (by decide) _, ?_⟩
  obtain ⟨y, hy⟩ := drop_replicate ho hn 0 (bufferEnd last line.length)
  obtain ⟨y', hy'⟩ := drop_replicate ho hn (code 'A') (bufferEnd last line.length)
  simp only [lineRequest, command_append hne hr hs, if_neg hwrite, hpath, Option.map_some, hy, hy',
    argument_zero, argument_letter h0 (by decide : code 'A' ≠ code ' ') (by decide),
    takeWhile_of_not_mem (not_mem_skipSpaces h0)]
  intro heq
  have hlen := congrArg List.length (Prod.mk.inj (Option.some.inj heq)).2
  simp at hlen

theorem leaks_write (hne : line ≠ []) (hcmd : command line = .writefile) (hn : line.length < 63)
    (h0 : 0 ∉ line.drop 10) (hblank : line.length = 62 → (∀ c ∈ line.drop 10, c = code ' ') →
      last = code ' ') : Leaks last line := by
  have hr : line ≠ [code 'r'] := by
    rintro rfl
    cases hcmd
  have hs : line ≠ [code 's'] := by
    rintro rfl
    cases hcmd
  have hreq (w : List UInt8) :
      lineRequest (line ++ w) = (writeData ((line ++ w).drop 10)).map (2, ·) := by
    rw [lineRequest, command_append hne hr hs, if_pos hcmd]
  by_cases hx : skipSpaces (line.drop 10) = []
  · -- No path has begun: zeros show the usage, and a letter and a blank are a path.
    obtain ⟨y, hy⟩ := drop_replicate (o := 10) (by decide) hn 0 (bufferEnd last line.length)
    have hnone : lineRequest (line ++ (List.replicate (63 - line.length) 0 ++
        bufferEnd last line.length)) = none := by
      rw [hreq, hy, writeData_unended (by rw [hx]; exact fun b hb => (by cases hb))]
      rfl
    have hplain : Plain (List.replicate (63 - line.length) 0) := plain_replicate (by decide) _
    by_cases h62 : line.length = 62
    · have hlast := hblank h62 (skipSpaces_eq_nil.mp hx)
      refine ⟨_, [code 'A'], List.length_replicate, by rw [h62]; rfl, hplain,
        plain_replicate (by decide) 1, ne_of_isSome hnone ?_⟩
      have heq : (line ++ ([code 'A'] ++ bufferEnd last line.length)).drop 10 =
          line.drop 10 ++ code 'A' :: code ' ' :: UInt8.ofNat line.length :: List.replicate
          7 0 := by
        rw [List.drop_append_of_le_length (by omega), bufferEnd, hlast]
        rfl
      rw [hreq, heq, Option.isSome_map]
      exact writeData_letter hx _
    · refine ⟨_, List.replicate (61 - line.length) (code ' ') ++ [code 'A', code ' '],
        List.length_replicate, by simp; omega, hplain, ?_, ne_of_isSome hnone ?_⟩
      · have hlast : ∀ c ∈ [code 'A', code ' '], c ≠ code '\r' ∧ c ≠ code '\n' :=
          List.forall_mem_cons.mpr ⟨by decide, List.forall_mem_singleton.mpr (by decide)⟩
        intro c hc
        rcases List.mem_append.mp hc with hc | hc
        · exact plain_replicate (by decide) _ c hc
        · exact hlast c hc
      · have heq : (line ++ (List.replicate (61 - line.length) (code ' ') ++
            [code 'A', code ' '] ++ bufferEnd last line.length)).drop 10 =
              (line.drop 10 ++ List.replicate (61 - line.length - (10 - line.length)) (code ' ')) ++
                code 'A' :: code ' ' :: bufferEnd last line.length := by
          rw [List.drop_append, List.append_assoc,
            List.drop_append_of_le_length (by simp; omega), List.drop_replicate]
          simp
        rw [hreq, heq, Option.isSome_map]
        apply writeData_letter
        rw [skipSpaces_blank hx, skipSpaces_eq_nil]
        exact fun b hb => List.eq_of_mem_replicate hb
  · have hlen : 10 ≤ line.length := by
      by_contra hlt
      rw [List.drop_eq_nil_of_le (by omega)] at hx
      exact hx rfl
    have hfirst (c : UInt8) : (line ++ ((c :: List.replicate (62 - line.length) 0) ++
        bufferEnd last line.length)).drop 10 = line.drop 10 ++ c ::
          (List.replicate (62 - line.length) 0 ++ bufferEnd last line.length) :=
      List.drop_append_of_le_length hlen
    have hleak {c : UInt8} (hc : c ≠ code '\r' ∧ c ≠ code '\n')
        (h : writeData (line.drop 10 ++ 0 ::
          (List.replicate (62 - line.length) 0 ++ bufferEnd last line.length)) ≠
            writeData (line.drop 10 ++ c ::
              (List.replicate (62 - line.length) 0 ++ bufferEnd last line.length))) :
        Leaks last line := by
      have hsize (c : UInt8) : (c :: List.replicate (62 - line.length) 0).length =
          63 - line.length := by
        simp
        omega
      have hplain {c : UInt8} (hc : c ≠ code '\r' ∧ c ≠ code '\n') :
          Plain (c :: List.replicate (62 - line.length) 0) := by
        intro b hb
        rcases List.mem_cons.mp hb with rfl | hb
        · exact hc
        · exact plain_replicate (by decide) _ b hb
      refine ⟨_, _, hsize 0, hsize c, hplain (by decide), hplain hc, ?_⟩
      rw [hreq, hreq, hfirst, hfirst]
      intro heq
      exact h (Option.map_injective (Prod.mk_right_injective 2) heq)
    rcases writeData_leaks h0 (by simp; omega) hx
        (List.replicate (62 - line.length) 0 ++ bufferEnd last line.length) with h | h
    · exact hleak (by decide) h
    · exact hleak (by decide) h

theorem leaks_of_not_selfContained (hne : line ≠ []) (h : ¬ SelfContained last line)
    (hn : line.length ≤ 63) : Leaks last line := by
  by_cases hr : line = [code 'r']
  · rw [hr]
    exact leaks_letter (c := code 'e') (by decide) (fun _ => rfl) fun _ => rfl
  · by_cases hs : line = [code 's']
    · rw [hs]
      exact leaks_letter (c := code 'p') (by decide) (fun _ => rfl) fun _ => rfl
    · have harg : ¬ ∀ offset, argumentOffset (command line) = some offset → _ :=
        fun harg => h ⟨hr, hs, harg⟩
      obtain ⟨o, hno⟩ := not_forall.mp harg
      obtain ⟨ho, hno⟩ := Classical.not_imp.mp hno
      obtain ⟨hfull, hno⟩ := not_or.mp hno
      obtain ⟨h0, hblank⟩ := not_or.mp hno
      have hlt : line.length < 63 := by omega
      by_cases hwrite : command line = .writefile
      · rw [argumentOffset, if_pos hwrite] at ho
        obtain rfl := Option.some.inj ho
        refine leaks_write hne hwrite hlt h0 fun h62 hall => ?_
        by_contra hlast
        exact hblank ⟨hwrite, h62, hall, hlast⟩
      · rw [argumentOffset, if_neg hwrite] at ho
        obtain ⟨r, hpath, rfl⟩ := Option.map_eq_some_iff.mp ho
        exact leaks_path hne hr hs hpath hlt h0

end Tails

section Buffers

variable {shell : ℕ} {cmd : Buffer} {line : List UInt8} {m : Message}

/-- A typed line is what the shell reads. -/
theorem readLine_typed (h : Typed line) (rest : List UInt8) :
    readLine (line ++ code '\r' :: rest) = line := by
  have hall : ∀ c ∈ line, (c != code '\r' && c != code '\n') = true := by
    intro c hc
    simpa using h.2 c hc
  rw [readLine, List.takeWhile_append_of_pos hall, List.takeWhile_cons, if_neg (by decide),
    List.append_nil, List.take_of_length_le (h.1.trans (by decide))]

theorem lineMessage_eq (h : lineMessage shell line = some m) (hn : line.length ≤ 63) :
    m = ⟨shell, 1, line⟩ ∧ line ≠ [] := by
  unfold lineMessage at h
  split at h
  · cases h
  next hhead =>
    obtain rfl := Option.some.inj h
    have hlen : (if ipcMaxData < line.length then ipcMaxData else line.length) = line.length :=
      if_neg (Nat.not_lt.mpr (hn.trans (by decide)))
    constructor
    · rw [SendArgs.message, SendArgs.length, hlen, Message.mk.injEq]
      exact ⟨rfl, rfl, bytes_getD rfl⟩
    · rintro rfl
      exact hhead rfl

theorem lengthBytes (hn : line.length ≤ 63) :
    (List.range 8).map (byteAt line.length) = UInt8.ofNat line.length :: List.replicate 7 0 := by
  generalize line.length = n at hn
  have hall : ∀ n ≤ 63, (List.range 8).map (byteAt n) = UInt8.ofNat n :: List.replicate 7 0 := by
    decide +kernel
  exact hall n hn

/-- The buffer with a line in it: behind the line are bytes of earlier lines. -/
theorem text_deliver (hn : line.length ≤ 63) (cmd : Buffer) (shell : ℕ) :
    (cmd.deliver ⟨shell, 1, line⟩).text =
      line ++ ((List.range' line.length (63 - line.length)).map cmd.msg.data ++
        bufferEnd (cmd.msg.data 63) line.length) := by
  have hrange : List.range 64 = List.range line.length ++
      (List.range' line.length (63 - line.length) ++ [63]) := by
    have hlast : [63] = List.range' (line.length + (63 - line.length)) 1 := by
      rw [Nat.add_sub_cancel' hn]
      rfl
    have hfirst : List.range' 0 line.length ++ List.range' (0 + line.length)
        (63 - line.length + 1) = List.range' 0 64 := by
      rw [List.range'_append_1]
      congr 1
      omega
    rw [hlast, List.range'_append_1, List.range_eq_range', List.range_eq_range', ← hfirst,
      Nat.zero_add]
  rw [Buffer.text, hrange]
  simp only [Buffer.deliver, List.map_append, List.map_cons, List.map_nil, lengthBytes hn,
    if_neg (Nat.not_lt.mpr hn), bufferEnd, List.append_assoc, List.cons_append, List.nil_append]
  congr 1
  · refine Eq.trans (List.map_congr_left fun i hi => ?_) (bytes_getD rfl)
    exact if_pos (List.mem_range.mp hi)
  · congr 1
    apply List.map_congr_left
    intro i hi
    exact if_neg (by have := List.mem_range'_1.mp hi; omega)

/-- No line reaches the last byte of the buffer. -/
theorem bufferAfterAll_last (shell : ℕ) (cmd : Buffer) {lines : List (List UInt8)}
    (h : ∀ l ∈ lines, Typed l) : (bufferAfterAll shell cmd lines).msg.data 63 =
    cmd.msg.data 63 := by
  induction lines generalizing cmd with
  | nil => rfl
  | cons l lines ih =>
    have hl : (bufferAfter shell cmd l).msg.data 63 = cmd.msg.data 63 := by
      unfold bufferAfter
      cases hm : lineMessage shell l with
      | none => rfl
      | some m =>
        obtain ⟨rfl, -⟩ := lineMessage_eq hm (h l (by simp)).1
        exact if_neg (Nat.not_lt.mpr (h l (by simp)).1)
    rw [bufferAfterAll, List.foldl_cons, ← hl]
    exact ih _ fun l' hl' => h l' (by simp [hl'])

/-- An unknown command leaves any bytes behind a later line. -/
theorem exists_earlier {n : ℕ} (hpos : 0 < n) (hn : n ≤ 63) (shell : ℕ) (cmd : Buffer)
    {u : List UInt8} (hu : u.length = 63 - n) (hplain : Plain u) :
    ∃ l, Typed l ∧ (List.range' n (63 - n)).map (bufferAfterAll shell cmd [l]).msg.data = u := by
  have hlen : (List.replicate n (code 'x') ++ u).length = 63 := by
    simp
    omega
  refine ⟨List.replicate n (code 'x') ++ u, ⟨hlen.le, ?_⟩, ?_⟩
  · intro c hc
    rcases List.mem_append.mp hc with hc | hc
    · exact plain_replicate (by decide) _ c hc
    · exact hplain c hc
  · have hhead : (List.replicate n (code 'x') ++ u).getD 0 0 ≠ 0 := by
      obtain ⟨k, rfl⟩ := Nat.exists_eq_succ_of_ne_zero hpos.ne'
      simp only [List.replicate_succ, List.cons_append, List.getD_cons_zero]
      decide
    obtain ⟨m, hm⟩ : ∃ m, lineMessage shell (List.replicate n (code 'x') ++ u) = some m :=
      ⟨_, if_neg hhead⟩
    obtain ⟨rfl, -⟩ := lineMessage_eq hm hlen.le
    simp only [bufferAfterAll, List.foldl_cons, List.foldl_nil, bufferAfter, hm, Buffer.deliver,
      hlen]
    apply List.ext_getElem
    · simp [hu]
    · intro i h₁ h₂
      have hi : i < 63 - n := by simpa using h₁
      simp only [List.getElem_map, List.getElem_range', Nat.one_mul]
      rw [if_pos (by omega), List.getD_eq_getElem?_getD, List.getElem?_append_right (by simp)]
      simp [h₂]

end Buffers

section Requests

variable {shell : ℕ} {cmd resp : Buffer} {line : List UInt8} {m : Message}
  {incoming : List Message}

theorem pid_sendStr (shell : ℕ) (s : List UInt8) : ∀ m ∈ sendStr shell s, m.pid = shell := by
  unfold sendStr
  generalize s.length = n
  induction n generalizing s with
  | zero => exact fun m hm => (by cases hm)
  | succ n ih =>
    rw [sendStrLoop]
    split
    · exact fun m hm => (by cases hm)
    · intro m hm
      rcases List.mem_cons.mp hm with rfl | hm
      · rfl
      · exact ih _ m hm

theorem ask_request {req : Send} (hreq : req.pid = fat32Pid) (answer : Buffer → List Send)
    (resp : Buffer) (incoming : List Message) :
    (ask req answer resp incoming).1.find? (·.pid == fat32Pid) = some req := by
  unfold ask
  split <;> simp [hreq]

/-- The request is the first message to the file server. -/
theorem find_request (hshell : cmd.msg.senderPid ≠ fat32Pid) (resp : Buffer)
    (incoming : List Message) :
    (serveCommand cmd resp incoming).1.find? (·.pid == fat32Pid) = request cmd := by
  have hnone (s : List UInt8) (out : List Send) (hout : ∀ m ∈ out, m.pid = cmd.msg.senderPid) :
      (sendStr cmd.msg.senderPid s ++ out).find? (·.pid == fat32Pid) = none := by
    rw [List.find?_eq_none]
    intro m hm
    have hpid : m.pid = cmd.msg.senderPid := by
      rcases List.mem_append.mp hm with hm | hm
      · exact pid_sendStr _ _ m hm
      · exact hout m hm
    simpa [hpid] using hshell
  have hone (m : Send) (hm : m.pid = cmd.msg.senderPid) :
      ∀ m' ∈ [m], m'.pid = cmd.msg.senderPid := by
    intro m' hm'
    rw [List.mem_singleton.mp hm', hm]
  unfold request serveCommand
  cases hcmd : command cmd.text with
  | help | clear | exit | unknown => exact hnone _ _ (hone _ rfl)
  | readfile =>
    simp only [readfile]
    split <;> rfl
  | spawn | delete | mkdir | rmdir => exact ask_request rfl _ resp incoming
  | writefile =>
    cases hdata : writeData (cmd.text.drop 10) with
    | none =>
      have husage := hnone (ascii "Usage: writefile <path> <data>\r\n") [] fun m hm => (by cases hm)
      rwa [List.append_nil] at husage
    | some data => exact ask_request rfl _ resp incoming

/-- A path is sent with the zero that ends it. -/
theorem path_visible {x : List UInt8} {o : ℕ} (htext : cmd.text = x ++ List.replicate 7 0)
    (hx : x.length = 65) (ho : 6 ≤ o) (ho' : o ≤ 10) :
    (cmd.path o).takeWhile (· != 0) = argument (cmd.text.drop o) := by
  have hdrop : cmd.text.drop o = x.drop o ++ 0 :: List.replicate 6 0 := by
    rw [htext, List.drop_append_of_le_length (by omega)]
    rfl
  have hle : (skipSpaces (x.drop o)).length ≤ 59 := by
    have h := (List.dropWhile_suffix (· == code ' ') (l := x.drop o)).length_le
    rw [List.length_drop] at h
    unfold skipSpaces
    omega
  rw [hdrop, argument_zero, Buffer.path, hdrop, skipSpaces_stop (by decide), List.append_assoc,
    List.take_append, List.take_of_length_le (by omega)]
  obtain ⟨k, hk⟩ : ∃ k, 63 - (skipSpaces (x.drop o)).length = k + 1 :=
    Nat.exists_eq_succ_of_ne_zero (by omega)
  rw [hk, List.cons_append, List.take_succ_cons, takeWhile_stop (by decide)]

theorem request_visible {x : List UInt8} (htext : cmd.text = x ++ List.replicate 7 0)
    (hx : x.length = 65) : (request cmd).map Send.visible = lineRequest cmd.text := by
  have hpath (o : ℕ) (ho : 6 ≤ o) (ho' : o ≤ 10) := path_visible htext hx ho ho'
  unfold request lineRequest
  cases hcmd : command cmd.text with
  | help | clear | exit | unknown => rfl
  | readfile => simp [Send.visible, pathRequest, hpath]
  | spawn | delete | mkdir | rmdir => simp [Send.visible, pathRequest, hpath]
  | writefile =>
    rw [if_pos rfl, Option.map_map]
    rfl

/-- The request sent for a line. -/
theorem sentRequest_line (hshell : shell ≠ fat32Pid) (hm : lineMessage shell line = some m)
    (hn : line.length ≤ 63) (cmd resp : Buffer) (incoming : List Message) :
    sentRequest (serveLine shell cmd resp line incoming) =
      lineRequest (line ++ ((List.range' line.length (63 - line.length)).map cmd.msg.data ++
        bufferEnd (cmd.msg.data 63) line.length)) := by
  obtain ⟨rfl, -⟩ := lineMessage_eq hm hn
  have htext := text_deliver hn cmd shell
  have hpid : (cmd.deliver ⟨shell, 1, line⟩).msg.senderPid ≠ fat32Pid := hshell
  rw [serveLine, hm]
  simp only [serveMessage, if_true]
  rw [sentRequest, find_request hpid, ← htext]
  apply request_visible (x := line ++ ((List.range' line.length (63 - line.length)).map
    cmd.msg.data ++ [cmd.msg.data 63, UInt8.ofNat line.length]))
  · rw [htext, bufferEnd]
    simp
  · simp
    omega

theorem selfContained_of_unsent {last : UInt8} (h : line.getD 0 0 = 0) :
    SelfContained last line := by
  have hcmd : command line = .unknown := by
    rw [command, h]
    rfl
  refine ⟨?_, ?_, fun offset hoffset => ?_⟩
  · rintro rfl
    exact absurd h (by decide)
  · rintro rfl
    exact absurd h (by decide)
  · rw [hcmd] at hoffset
    cases hoffset

/-- The request for a line is the same after any earlier lines exactly when the line is its own. -/
theorem request_depends_iff (cmd : Buffer) (hshell : shell ≠ fat32Pid) (hline : Typed line) :
    (∀ earlier earlier', (∀ l ∈ earlier, Typed l) → (∀ l ∈ earlier', Typed l) →
      ∀ resp resp' incoming incoming',
        sentRequest (serveLine shell (bufferAfterAll shell cmd earlier) resp line incoming) =
          sentRequest (serveLine shell (bufferAfterAll shell cmd earlier') resp' line incoming')) ↔
      SelfContained (cmd.msg.data 63) line := by
  cases hm : lineMessage shell line with
  | none =>
    have hhead : line.getD 0 0 = 0 := by
      unfold lineMessage at hm
      split at hm
      · assumption
      · cases hm
    have hserve (cmd resp : Buffer) (incoming : List Message) :
        sentRequest (serveLine shell cmd resp line incoming) = none := by
      rw [serveLine, hm]
      rfl
    simp only [hserve, selfContained_of_unsent hhead, implies_true]
  | some m =>
    obtain ⟨-, hne⟩ := lineMessage_eq hm hline.1
    constructor
    · intro hall
      by_contra h
      obtain ⟨u, u', hu, hu', hplain, hplain', hdiff⟩ := leaks_of_not_selfContained hne h hline.1
      have hpos := List.length_pos_of_ne_nil hne
      obtain ⟨l, hl, hdata⟩ := exists_earlier hpos hline.1 shell cmd hu hplain
      obtain ⟨l', hl', hdata'⟩ := exists_earlier hpos hline.1 shell cmd hu' hplain'
      have hearlier : ∀ k ∈ [l], Typed k := by simpa using hl
      have hearlier' : ∀ k ∈ [l'], Typed k := by simpa using hl'
      have heq := hall [l] [l'] hearlier hearlier' cmd cmd [] []
      rw [sentRequest_line hshell hm hline.1, sentRequest_line hshell hm hline.1, hdata, hdata',
        bufferAfterAll_last shell cmd hearlier, bufferAfterAll_last shell cmd hearlier'] at heq
      exact hdiff heq
    · intro h earlier earlier' hearlier hearlier' resp resp' incoming incoming'
      rw [sentRequest_line hshell hm hline.1, sentRequest_line hshell hm hline.1,
        bufferAfterAll_last shell cmd hearlier, bufferAfterAll_last shell cmd hearlier']
      exact lineRequest_eq hne h (by simp) (by simp)

end Requests

section Sample

private theorem typed_ascii {s : String} (h : (ascii s).length ≤ 63)
    (h' : ∀ c ∈ ascii s, c ≠ code '\r' ∧ c ≠ code '\n') : Typed (ascii s) := ⟨h, h'⟩

/-- A line that fills the buffer up to the last byte. -/
theorem request_depends_sample :
    let line := ascii "mkdir " ++ List.replicate 57 66
    Typed line ∧ SelfContained 0 line ∧
    sentRequest (serveLine 4 (bufferAfterAll 4 emptyBuffer [ascii "mkdir A"]) emptyBuffer line []) =
      sentRequest (serveLine 4 (bufferAfterAll 4 emptyBuffer []) emptyBuffer line []) := by
  intro line
  have hplain : ∀ c ∈ line, c ≠ code '\r' ∧ c ≠ code '\n' := by decide +kernel
  have hline : Typed line := ⟨by decide +kernel, hplain⟩
  have hearlier : ∀ l ∈ [ascii "mkdir A"], Typed l := by
    intro l hl
    rw [List.mem_singleton.mp hl]
    exact typed_ascii (by decide +kernel) (by decide +kernel)
  have hself : SelfContained 0 line :=
    ⟨by decide +kernel, by decide +kernel, fun _ _ => .inl (by decide +kernel)⟩
  exact ⟨hline, hself, (request_depends_iff emptyBuffer (by decide) hline).mpr hself _ _ hearlier
    (fun l hl => (by cases hl)) _ _ _ _⟩

/-- The path of `mkdir A` is A, but after `mkdir LONG` it is AONG. -/
theorem request_leaks :
    Typed (ascii "mkdir A") ∧ Typed (ascii "mkdir LONG") ∧
    sentRequest (serveLine 4 (bufferAfterAll 4 emptyBuffer []) emptyBuffer (ascii "mkdir A") []) =
      some (4, ascii "A") ∧
    sentRequest (serveLine 4 (bufferAfterAll 4 emptyBuffer [ascii "mkdir LONG"]) emptyBuffer
      (ascii "mkdir A") []) = some (4, ascii "AONG") := by
  refine ⟨typed_ascii (by decide +kernel) (by decide +kernel),
    typed_ascii (by decide +kernel) (by decide +kernel), ?_, ?_⟩ <;> decide +kernel

end Sample

end Mukrn.Shell
