import SysPrg.Stdio

namespace SysPrg.Shell
set_option autoImplicit true

open ShmLines (getLine getLine_line getLine_length_le)

def len : Nat := 128

def maxArgs : Nat := 1024

def exitStr : Bytes := [113]

/-- `strncmp(a, b, n) == 0`, for strings without their terminators. -/
def strncmpEq (a b : Bytes) (n : Nat) : Bool := (a ++ [0]).take n == (b ++ [0]).take n

/-- What a turn of the loop makes of a line. It is an `overrun` when the last character of an empty
string is cut off. -/
inductive Turn where
  | eof
  | overrun
  | blank
  | quit
  | command (cmd : Bytes)
  deriving DecidableEq, Repr

/-- The turn of `mysh` and of `mysh_simple`, from what `fgets` has stored up to the command that
they start. The character that is cut off is meant to be the newline. -/
def turn (line : Bytes) : Turn :=
  if line = [] then .eof
  else if cStr line = [] then .overrun
  else
    let cmd := (cStr line).dropLast
    if cmd = [] then .blank
    else if strncmpEq cmd exitStr cmd.length then .quit
    else .command cmd

/-- What becomes of a command: there is no program for it, and its process calls `exit`, or one runs
and reads so much of the shell's input. -/
inductive Outcome where
  | fails
  | runs (k : Nat)
  deriving DecidableEq, Repr

def Outcome.leaves (kind : InputKind) (s : Stdin) : Outcome → Stdin
  | .fails => s.childExit kind
  | .runs k => s.childRead k

/-- What the shell's standard input is, and what becomes of a command that it starts in its turn
`i`. -/
structure World where
  kind : InputKind
  outcome : Nat → Bytes → Outcome

/-- The commands that the loop has started when it exits, for a shell that drops those that it
does not accept. The end of the input is `no input?` to it, and it goes on. -/
def shell (w : World) (accepts : Bytes → Bool) : Nat → Nat → Stdin → Option (List Bytes)
  | 0, _, _ => none
  | n + 1, i, s =>
    let line := s.fgets w.kind (len - 1)
    match turn line.1 with
    | .eof => shell w accepts n (i + 1) line.2
    | .overrun => none
    | .blank => shell w accepts n (i + 1) line.2
    | .quit => some []
    | .command cmd =>
      if accepts cmd then
        (shell w accepts n (i + 1) ((w.outcome i cmd).leaves w.kind line.2)).map (cmd :: ·)
      else shell w accepts n (i + 1) line.2

def tokens (cmd : Bytes) : List Bytes := (cmd.splitOn 32).filter (· ≠ [])

/-- The test on `i - 2`, where `i` is one more than the number of tokens, or two. -/
def tooMany (cmd : Bytes) : Bool := maxArgs < max (tokens cmd).length 1 - 1

def mysh (w : World) (n : Nat) (inp : Bytes) : Option (List Bytes) :=
  shell w (fun cmd => !tooMany cmd) n 0 (.start inp)

def myshSimple (w : World) (n : Nat) (inp : Bytes) : Option (List Bytes) :=
  shell w (fun _ => true) n 0 (.start inp)

/-- The commands that the loop has started when it exits, if the lines that it gets are those of
`inp`. -/
def started : Nat → Bytes → Option (List Bytes)
  | 0, _ => none
  | n + 1, inp =>
    let line := getLine (len - 1) inp
    match turn line.1 with
    | .eof | .blank => started n line.2
    | .overrun => none
    | .quit => some []
    | .command cmd => (started n line.2).map (cmd :: ·)

/-- The lines up to the first one that is `q`, but for the empty ones. -/
def kept (lines : List Bytes) : List Bytes :=
  (lines.takeWhile (· ≠ exitStr)).filter (· ≠ [])

def commands (inp : Bytes) : List Bytes := kept (inp.splitOn 10)

def lines (ls : List Bytes) : Bytes := (ls.map (· ++ [10])).flatten

/-- An input with a line `q` that ends in a newline, and no line before it that does not fit. -/
def Orderly (inp : Bytes) : Prop :=
  ∃ (ls : List Bytes) (rest : Bytes), inp = lines ls ++ (exitStr ++ 10 :: rest) ∧
    ∀ l ∈ ls, (10 : UInt8) ∉ l ∧ l.length + 2 ≤ len

theorem kept_cons (l : Bytes) (lines : List Bytes) :
    kept (l :: lines) =
      if l = [] then kept lines else if l = exitStr then [] else l :: kept lines := by
  by_cases hq : l = exitStr
  · subst hq
    rfl
  · have hkeep : decide (l ≠ exitStr) = true := decide_eq_true hq
    rw [kept, List.takeWhile_cons, if_pos hkeep, List.filter_cons, if_neg hq]
    by_cases hnil : l = []
    · subst hnil
      rfl
    · rw [if_pos (decide_eq_true hnil), if_neg hnil]
      rfl

theorem commands_line (h : (10 : UInt8) ∉ l) (rest : Bytes) :
    commands (l ++ 10 :: rest) =
      if l = [] then commands rest else if l = exitStr then [] else l :: commands rest := by
  have hall : ∀ x ∈ l, (x == 10) = false := by
    intro x hx
    exact beq_eq_false_iff_ne.mpr fun hx' => h (hx' ▸ hx)
  have hsplit : (l ++ 10 :: rest).splitOn 10 = l :: rest.splitOn 10 :=
    List.splitOnP_append_cons_of_forall_mem hall 10 rfl rest
  rw [commands, hsplit]
  exact kept_cons l _

theorem commands_last (h : (10 : UInt8) ∉ l) :
    commands l = if l = [] then [] else if l = exitStr then [] else [l] := by
  rw [commands, List.splitOn_eq_singleton h]
  exact kept_cons l []

theorem strncmpEq_exitStr (h0 : (0 : UInt8) ∉ cmd) (hne : cmd ≠ []) :
    strncmpEq cmd exitStr cmd.length = true ↔ cmd = exitStr := by
  rw [strncmpEq, List.take_left, beq_iff_eq]
  constructor
  · intro h
    -- With a second character the terminator of `q` would be compared with it.
    match cmd, hne, h with
    | [b], _, h => exact h
    | b :: c :: cmd, _, h =>
      have hc : c = 0 := (List.cons.inj (List.cons.inj h).2).1
      exact (h0 (hc ▸ List.mem_cons_of_mem b List.mem_cons_self)).elim
  · rintro rfl
    rfl

theorem turn_eq (h0 : (0 : UInt8) ∉ cmd ++ [b]) :
    turn (cmd ++ [b]) = if cmd = [] then .blank else if cmd = exitStr then .quit
      else .command cmd := by
  have hcmd : (0 : UInt8) ∉ cmd := fun h => h0 (List.mem_append_left _ h)
  have hne : cmd ++ [b] ≠ [] := List.append_ne_nil_of_right_ne_nil _ (List.cons_ne_nil b [])
  unfold turn
  simp only [cStr_eq_self h0, if_neg hne, List.dropLast_concat]
  by_cases hnil : cmd = []
  · rw [if_pos hnil, if_pos hnil]
  · rw [if_neg hnil, if_neg hnil]
    exact if_congr (strncmpEq_exitStr hcmd hnil) rfl rfl

theorem started_piece (hline : getLine (len - 1) inp = (cmd ++ [b], rest))
    (h0 : (0 : UInt8) ∉ cmd ++ [b]) (n : Nat) :
    started (n + 1) inp = if cmd = [] then started n rest
      else if cmd = exitStr then some [] else (started n rest).map (cmd :: ·) := by
  simp only [started, hline, turn_eq h0]
  by_cases hnil : cmd = []
  · rw [if_pos hnil, if_pos hnil]
  · by_cases hq : cmd = exitStr
    · rw [if_neg hnil, if_neg hnil, if_pos hq, if_pos hq]
    · rw [if_neg hnil, if_neg hnil, if_neg hq, if_neg hq]

theorem started_line (hl : (10 : UInt8) ∉ l) (h0 : (0 : UInt8) ∉ l)
    (hlen : l.length + 2 ≤ len) (n : Nat) (rest : Bytes) :
    started (n + 1) (l ++ 10 :: rest) = if l = [] then started n rest
      else if l = exitStr then some [] else (started n rest).map (l :: ·) := by
  have hlt : l.length < len - 1 := by omega
  have hline : getLine (len - 1) (l ++ 10 :: rest) = (l ++ [10], rest) := by
    rw [getLine_line _ hl, if_pos hlt]
  apply started_piece hline
  intro h
  rcases List.mem_append.mp h with h | h
  · exact h0 h
  · exact absurd (List.mem_singleton.mp h) (by decide)

theorem getLine_last (n : Nat) (h : (10 : UInt8) ∉ l) : getLine n l = (l.take n, l.drop n) := by
  induction n generalizing l with
  | zero => rfl
  | succ n ih =>
    cases l with
    | nil => rfl
    | cons b l =>
      have hb : b ≠ 10 := fun h' => h (h' ▸ List.mem_cons_self)
      rw [getLine, if_neg hb, ih fun h' => h (List.mem_cons_of_mem b h')]
      rfl

theorem started_nil (n : Nat) : started n [] = none := by
  induction n with
  | zero => rfl
  | succ n ih => exact ih

theorem map_cons_ne {x y : α} (hne : x ≠ y) {o : Option (List α)} {ys : List α} :
    o.map (x :: ·) ≠ some (y :: ys) := by
  intro h
  obtain ⟨xs, -, hxs⟩ := Option.map_eq_some_iff.mp h
  exact hne (List.cons.inj hxs).1

/-- Of a line that does not fit a part is taken for a command. -/
theorem started_long (hl : (10 : UInt8) ∉ l) (h0 : (0 : UInt8) ∉ l)
    (hlen : ¬ l.length + 2 ≤ len) (n : Nat) (rest : Bytes) :
    started (n + 1) (l ++ 10 :: rest) ≠ some (commands (l ++ 10 :: rest)) := by
  have hlen' : 127 ≤ l.length := by
    rw [len] at hlen
    omega
  have htake : l.take 127 = l.take 126 ++ [l.get ⟨126, by omega⟩] :=
    (List.take_append_getElem (by omega)).symm
  have hline : getLine (len - 1) (l ++ 10 :: rest) =
      (l.take 126 ++ [l.get ⟨126, by omega⟩], l.drop 127 ++ 10 :: rest) := by
    rw [getLine_line _ hl, if_neg (by rw [len]; omega), ← htake]
    rfl
  have hlong : ∀ l' : Bytes, l'.length ≤ 1 → l ≠ l' ∧ l.take 126 ≠ l' := by
    intro l' hl'
    refine ⟨?_, ?_⟩
    · rintro rfl
      omega
    · rintro rfl
      rw [List.length_take] at hl'
      omega
  rw [started_piece hline (htake ▸ fun h => h0 (List.mem_of_mem_take h)),
    if_neg (hlong [] (by decide)).2, if_neg (hlong exitStr (by decide)).2, commands_line hl,
    if_neg (hlong [] (by decide)).1, if_neg (hlong exitStr (by decide)).1]
  apply map_cons_ne
  intro h
  have hlength := congrArg List.length h
  rw [List.length_take] at hlength
  omega

/-- A last line without a newline loses its last character, and the shell waits for more. -/
theorem started_last (hl : (10 : UInt8) ∉ l) (h0 : (0 : UInt8) ∉ l) (n : Nat) :
    started n l ≠ some (commands l) := by
  cases n with
  | zero => exact fun h => (by cases h)
  | succ n =>
    rcases List.eq_nil_or_concat' (l.take 127) with hnil | ⟨cmd, b, hcmd⟩
    · have hl0 : l = [] := by simpa using hnil
      subst hl0
      rw [started_nil]
      exact fun h => (by cases h)
    · have hlength := congrArg List.length hcmd
      rw [List.length_append, List.length_take, List.length_singleton] at hlength
      have hline : getLine (len - 1) l = (cmd ++ [b], l.drop 127) := by
        rw [getLine_last _ hl, ← hcmd]
        rfl
      have hne : l ≠ [] := by
        rintro rfl
        rw [List.length_nil] at hlength
        omega
      rw [started_piece hline (hcmd ▸ fun h => h0 (List.mem_of_mem_take h)),
        commands_last hl, if_neg hne]
      by_cases hc : cmd = []
      · have hdrop : l.drop 127 = [] := by
          subst hc
          rw [List.length_nil] at hlength
          exact List.drop_eq_nil_of_le (by omega)
        rw [if_pos hc, hdrop, started_nil]
        exact fun h => (by cases h)
      · have hpos := List.length_pos_iff.mpr hc
        have hnq : l ≠ exitStr := by
          rintro rfl
          have hone : exitStr.length = 1 := rfl
          omega
        rw [if_neg hc, if_neg hnq]
        split
        · exact fun h => (by cases h)
        · apply map_cons_ne
          intro h
          subst h
          omega

theorem append_newline_inj (hl : (10 : UInt8) ∉ l) (hl' : (10 : UInt8) ∉ l')
    (h : l ++ 10 :: rest = l' ++ 10 :: rest') : l = l' ∧ rest = rest' := by
  induction l generalizing l' with
  | nil =>
    cases l' with
    | nil => exact ⟨rfl, (List.cons.inj h).2⟩
    | cons b l' => exact (hl' ((List.cons.inj h).1 ▸ List.mem_cons_self)).elim
  | cons a l ih =>
    cases l' with
    | nil => exact (hl ((List.cons.inj h).1 ▸ List.mem_cons_self)).elim
    | cons b l' =>
      obtain ⟨hab, htail⟩ := List.cons.inj h
      obtain ⟨h₁, h₂⟩ := ih (fun hm => hl (List.mem_cons_of_mem a hm))
        (fun hm => hl' (List.mem_cons_of_mem b hm)) htail
      exact ⟨by rw [hab, h₁], h₂⟩

theorem lines_cons (l : Bytes) (ls : List Bytes) (rest : Bytes) :
    lines (l :: ls) ++ rest = l ++ 10 :: (lines ls ++ rest) := by
  simp only [lines, List.map_cons, List.flatten_cons, List.append_assoc, List.cons_append,
    List.nil_append]

theorem orderly_line_iff (hl : (10 : UInt8) ∉ l) (rest : Bytes) :
    Orderly (l ++ 10 :: rest) ↔ l.length + 2 ≤ len ∧ (l = exitStr ∨ Orderly rest) := by
  constructor
  · rintro ⟨ls, more, heq, hls⟩
    cases ls with
    | nil =>
      obtain ⟨rfl, -⟩ := append_newline_inj hl (by decide) heq
      exact ⟨by decide, .inl rfl⟩
    | cons l' ls =>
      obtain ⟨⟨hl', hlen⟩, hls'⟩ := List.forall_mem_cons.mp hls
      rw [lines_cons] at heq
      obtain ⟨rfl, hrest⟩ := append_newline_inj hl hl' heq
      exact ⟨hlen, .inr ⟨ls, more, hrest, hls'⟩⟩
  · rintro ⟨hlen, rfl | ⟨ls, more, rfl, hls⟩⟩
    · exact ⟨[], rest, rfl, fun _ h => (by cases h)⟩
    · exact ⟨l :: ls, more, (lines_cons l ls _).symm,
        List.forall_mem_cons.mpr ⟨⟨hl, hlen⟩, hls⟩⟩

theorem not_orderly_last (hl : (10 : UInt8) ∉ l) : ¬ Orderly l := by
  rintro ⟨ls, rest, rfl, -⟩
  exact hl (List.mem_append_right _ (List.mem_append_right _ List.mem_cons_self))

/-- A line that fits is read as it is, and what follows it decides, unless it is `q`. -/
theorem started_line_iff (hl : (10 : UInt8) ∉ l) (h0 : (0 : UInt8) ∉ l)
    (hlen : l.length + 2 ≤ len) (rest : Bytes) :
    (∃ n, started n (l ++ 10 :: rest) = some (commands (l ++ 10 :: rest))) ↔
      l = exitStr ∨ ∃ n, started n rest = some (commands rest) := by
  have hq : exitStr ≠ [] := by decide
  constructor
  · rintro ⟨n, h⟩
    cases n with
    | zero => cases h
    | succ n =>
      rw [started_line hl h0 hlen, commands_line hl] at h
      by_cases hnil : l = []
      · rw [if_pos hnil, if_pos hnil] at h
        exact .inr ⟨n, h⟩
      · by_cases hlq : l = exitStr
        · exact .inl hlq
        · rw [if_neg hnil, if_neg hnil, if_neg hlq, if_neg hlq] at h
          obtain ⟨cmds, hn, hcmds⟩ := Option.map_eq_some_iff.mp h
          exact .inr ⟨n, hn.trans (congrArg some (List.cons.inj hcmds).2)⟩
  · rintro (rfl | ⟨n, h⟩)
    · refine ⟨1, ?_⟩
      rw [started_line hl h0 hlen, commands_line hl, if_neg hq, if_neg hq, if_pos rfl,
        if_pos rfl]
    · refine ⟨n + 1, ?_⟩
      rw [started_line hl h0 hlen, commands_line hl, h]
      split
      · rfl
      · split
        · rfl
        · rfl

theorem started_iff (h0 : (0 : UInt8) ∉ inp) :
    (∃ n, started n inp = some (commands inp)) ↔ Orderly inp := by
  induction hn : inp.length using Nat.strong_induction_on generalizing inp with
  | _ k ih =>
    by_cases hnl : (10 : UInt8) ∈ inp
    · obtain ⟨l, rest, rfl, hl⟩ := List.eq_append_cons_of_mem hnl
      have h0l : (0 : UInt8) ∉ l := fun h => h0 (List.mem_append_left _ h)
      have h0r : (0 : UInt8) ∉ rest :=
        fun h => h0 (List.mem_append_right _ (List.mem_cons_of_mem _ h))
      have hlt : rest.length < k := by
        rw [← hn, List.length_append, List.length_cons]
        omega
      rw [orderly_line_iff hl, ← ih _ hlt h0r rfl]
      by_cases hlen : l.length + 2 ≤ len
      · rw [started_line_iff hl h0l hlen]
        exact ⟨fun h => ⟨hlen, h⟩, fun h => h.2⟩
      · refine ⟨?_, fun h => (hlen h.1).elim⟩
        rintro ⟨n, h⟩
        cases n with
        | zero => cases h
        | succ n => exact (started_long hl h0l hlen n rest h).elim
    · refine ⟨?_, fun h => (not_orderly_last hnl h).elim⟩
      rintro ⟨n, h⟩
      exact (started_last hnl h0 n h).elim

theorem length_splitOn_le (c : UInt8) (bs : Bytes) : (bs.splitOn c).length ≤ bs.length + 1 := by
  induction bs with
  | nil => exact Nat.le_refl 1
  | cons b bs ih =>
    rw [List.splitOn, List.splitOnP_cons_eq_if_modifyHead]
    split
    · exact Nat.succ_le_succ ih
    · rw [List.length_modifyHead]
      exact ih.trans (Nat.le_succ _)

theorem turn_command_length (h : turn line = .command cmd) (hlen : line.length + 1 ≤ len) :
    cmd.length + 2 ≤ len := by
  unfold turn at h
  dsimp only at h
  split at h
  · cases h
  · next hne =>
    split at h
    · cases h
    · split at h
      · cases h
      · split at h
        · cases h
        · obtain rfl := Turn.command.inj h
          have hpos := List.length_pos_iff.mpr hne
          have hc : (cStr line).length ≤ line.length := (List.takeWhile_prefix _).length_le
          rw [List.length_dropLast]
          omega

theorem not_tooMany (h : cmd.length + 2 ≤ len) : tooMany cmd = false := by
  have hsplit := length_splitOn_le 32 cmd
  have htokens : (tokens cmd).length ≤ (cmd.splitOn 32).length := List.length_filter_le _ _
  rw [len] at h
  apply decide_eq_false
  rw [maxArgs]
  omega

end SysPrg.Shell
