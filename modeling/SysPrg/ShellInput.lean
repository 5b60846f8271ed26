import SysPrg.Shell

namespace SysPrg.Shell
set_option autoImplicit true

open ShmLines (getLine_line getLine_length_le)

/-- What becomes of a command does not move the offset of an input of this kind, when so much of it
has been taken. -/
def Outcome.Keeps (kind : InputKind) (p : Nat) : Outcome → Prop
  | .runs k => k = 0
  | .fails => kind.seekable = true → kind.blockEnd p = p

/-- Where standard input cannot seek, or every command is found. -/
def World.Steady (w : World) : Prop :=
  ∀ i cmd, match w.outcome i cmd with
    | .runs k => k = 0
    | .fails => w.kind.seekable = false

/-- The lines that the shell takes from its turn `i` on, when it has taken `p` bytes, fit into its
buffer, and no command among them moves the offset, unless what comes up to the byte `e` has been
read already. -/
def World.Takes (w : World) (e : Nat) : Nat → Nat → List Bytes → Prop
  | _, _, [] => True
  | i, p, l :: ls =>
    (10 : UInt8) ∉ l ∧ l.length + 2 ≤ len ∧
      (l = [] ∨ (w.outcome i l).Keeps w.kind (p + l.length + 1) ∨
        w.kind.seekable = true ∧ e ≤ w.kind.blockEnd (p + l.length + 1)) ∧
      w.Takes e (i + 1) (p + l.length + 1) ls

/-- An input with a line `q` that ends in a newline, and lines before it that the shell can take. -/
def World.Fit (w : World) (inp : Bytes) : Prop :=
  ∃ (ls : List Bytes) (rest : Bytes), inp = lines ls ++ (exitStr ++ 10 :: rest) ∧
    w.Takes ((lines ls).length + 2) 0 0 ls

/-- The shell exits, having started exactly the commands that the input holds. -/
def Handles (sh : Nat → Bytes → Option (List Bytes)) (inp : Bytes) : Prop :=
  ∃ n, sh n inp = some (commands inp)

theorem length_lines_cons (l : Bytes) (ls : List Bytes) :
    (lines (l :: ls)).length = l.length + 1 + (lines ls).length := by
  have h := congrArg List.length (lines_cons l ls [])
  rw [List.append_nil, List.append_nil, List.length_append, List.length_cons] at h
  omega

theorem commands_lines (h : ∀ l ∈ ls, (10 : UInt8) ∉ l) (rest : Bytes) :
    commands (lines ls ++ (exitStr ++ 10 :: rest)) = kept ls := by
  induction ls with
  | nil =>
    change commands (exitStr ++ 10 :: rest) = []
    rw [commands_line (by decide), if_neg (by decide), if_pos rfl]
  | cons l ls ih =>
    obtain ⟨hl, hls⟩ := List.forall_mem_cons.mp h
    rw [lines_cons, commands_line hl, ih hls, kept_cons]

theorem World.Takes.fits {w : World} (h : w.Takes e i p ls) :
    ∀ l ∈ ls, (10 : UInt8) ∉ l ∧ l.length + 2 ≤ len := by
  induction ls generalizing i p with
  | nil => nofun
  | cons l ls ih =>
    obtain ⟨hl, hlen, -, hls⟩ := h
    exact List.forall_mem_cons.mpr ⟨⟨hl, hlen⟩, ih hls⟩

theorem World.Steady.takes {w : World} (hw : w.Steady)
    (h : ∀ l ∈ ls, (10 : UInt8) ∉ l ∧ l.length + 2 ≤ len) (e i p : Nat) : w.Takes e i p ls := by
  induction ls generalizing i p with
  | nil => trivial
  | cons l ls ih =>
    obtain ⟨⟨hl, hlen⟩, hls⟩ := List.forall_mem_cons.mp h
    refine ⟨hl, hlen, .inr (.inl ?_), ih hls _ _⟩
    have hout := hw i l
    cases ho : w.outcome i l with
    | runs k =>
      rw [ho] at hout
      exact hout
    | fails =>
      rw [ho] at hout
      intro hseek
      exact absurd (hseek.symm.trans hout) (by decide)

theorem World.Steady.fit_iff {w : World} (hw : w.Steady) (inp : Bytes) :
    w.Fit inp ↔ Orderly inp := by
  constructor
  · rintro ⟨ls, rest, heq, h⟩
    exact ⟨ls, rest, heq, h.fits⟩
  · rintro ⟨ls, rest, heq, h⟩
    exact ⟨ls, rest, heq, hw.takes h _ _ _⟩

theorem World.Steady.leaves {w : World} (hw : w.Steady) (i : Nat) (cmd : Bytes) (s : Stdin) :
    (w.outcome i cmd).leaves w.kind s = s := by
  have hout := hw i cmd
  cases ho : w.outcome i cmd with
  | runs k =>
    rw [ho] at hout
    obtain rfl : k = 0 := hout
    exact s.childRead_zero
  | fails =>
    rw [ho] at hout
    exact Stdin.childExit_of_not_seekable hout s

theorem Outcome.leaves_buf (o : Outcome) (kind : InputKind) (s : Stdin) :
    (o.leaves kind s).buf = s.buf := by
  cases o with
  | runs k => rfl
  | fails => exact s.childExit_buf

theorem Outcome.Keeps.leaves {o : Outcome} {s : Stdin} (h : o.Keeps kind p)
    (hbuf : kind.seekable = true → p + s.buf.length = min (kind.blockEnd p) N) :
    o.leaves kind s = s := by
  cases o with
  | runs k =>
    obtain rfl : k = 0 := h
    exact s.childRead_zero
  | fails =>
    cases hseek : kind.seekable with
    | false => exact Stdin.childExit_of_not_seekable hseek s
    | true =>
      have hlen := hbuf hseek
      rw [h hseek] at hlen
      exact Stdin.childExit_of_nil (List.length_eq_zero_iff.mp (by omega))

theorem buffered_of_length {s : Stdin} (hrest : s.rest = xs ++ (exitStr ++ 10 :: more))
    (hlen : xs.length + 2 ≤ s.buf.length) : ∃ more', s.buf = xs ++ (exitStr ++ 10 :: more') := by
  have hq : xs ++ (exitStr ++ [10]) <+: s.rest :=
    ⟨more, by rw [hrest]; simp only [List.append_assoc, List.cons_append, List.nil_append]⟩
  have hbuf : s.buf <+: s.rest := List.prefix_append _ _
  obtain ⟨more', hmore⟩ := List.prefix_of_prefix_length_le hq hbuf (by
    rw [List.length_append]
    exact hlen)
  exact ⟨more', by rw [← hmore]; simp only [List.append_assoc, List.cons_append, List.nil_append]⟩

section

variable {w : World} {accepts : Bytes → Bool}
  (hacc : ∀ cmd : Bytes, cmd.length + 2 ≤ len → accepts cmd = true)

include hacc

theorem shell_eq_started (hw : w.Steady) (n i : Nat) {s : Stdin} (hs : s.Sound) :
    shell w accepts n i s = started n s.rest := by
  induction n generalizing i s with
  | zero => rfl
  | succ n ih =>
    obtain ⟨hsound, hline, hrest⟩ := Stdin.fgets_spec hs w.kind (len - 1)
    rw [shell, started, ← hline, ← hrest]
    cases ht : turn (s.fgets w.kind (len - 1)).1 with
    | eof => exact ih (i + 1) hsound
    | overrun => rfl
    | blank => exact ih (i + 1) hsound
    | quit => rfl
    | command cmd =>
      have hle : (s.fgets w.kind (len - 1)).1.length + 1 ≤ len := by
        have := getLine_length_le (len - 1) s.rest
        have hlen : len = 128 := rfl
        rw [hline]
        omega
      simp only [hacc cmd (turn_command_length ht hle), if_true, hw.leaves, ih (i + 1) hsound]

theorem shell_line {s s' : Stdin} (h0 : (0 : UInt8) ∉ l) (hlen : l.length + 2 ≤ len)
    (hline : s.fgets w.kind (len - 1) = (l ++ [10], s')) (n i : Nat) :
    shell w accepts (n + 1) i s = if l = [] then shell w accepts n (i + 1) s'
      else if l = exitStr then some []
      else (shell w accepts n (i + 1) ((w.outcome i l).leaves w.kind s')).map (l :: ·) := by
  have h0' : (0 : UInt8) ∉ l ++ [10] := by
    intro h
    rcases List.mem_append.mp h with h | h
    · exact h0 h
    · exact absurd (List.mem_singleton.mp h) (by decide)
  simp only [shell, hline, turn_eq h0']
  by_cases hnil : l = []
  · rw [if_pos hnil, if_pos hnil]
  · by_cases hq : l = exitStr
    · rw [if_neg hnil, if_neg hnil, if_pos hq, if_pos hq]
    · rw [if_neg hnil, if_neg hnil, if_neg hq, if_neg hq]
      simp only [hacc l hlen, if_true]

/-- When all that comes up to `q` is buffered, nothing that becomes of the commands matters. -/
theorem shell_buffered {s : Stdin} (h : ∀ l ∈ ls, (10 : UInt8) ∉ l ∧ l.length + 2 ≤ len)
    (h0 : (0 : UInt8) ∉ lines ls) (hbuf : s.buf = lines ls ++ (exitStr ++ 10 :: more)) (i : Nat) :
    ∃ n, shell w accepts n i s = some (kept ls) := by
  induction ls generalizing s i with
  | nil =>
    have hline := Stdin.fgets_buffered w.kind (l := exitStr) (n := len - 1) (by decide) (by decide)
      hbuf
    refine ⟨1, ?_⟩
    rw [shell_line hacc (by decide) (by decide) hline, if_neg (by decide), if_pos rfl]
    rfl
  | cons l ls ih =>
    obtain ⟨⟨hl, hlen⟩, hls⟩ := List.forall_mem_cons.mp h
    rw [lines_cons] at hbuf
    rw [← List.append_nil (lines _), lines_cons, List.append_nil] at h0
    have h0l : (0 : UInt8) ∉ l := fun hm => h0 (List.mem_append_left _ hm)
    have h0ls : (0 : UInt8) ∉ lines ls :=
      fun hm => h0 (List.mem_append_right _ (List.mem_cons_of_mem _ hm))
    have hline := Stdin.fgets_buffered w.kind (n := len - 1) hl (by omega) hbuf
    by_cases hq : l = exitStr
    · refine ⟨1, ?_⟩
      rw [shell_line hacc h0l hlen hline, hq, if_neg (by decide), if_pos rfl]
      rfl
    · by_cases hnil : l = []
      · obtain ⟨n, hn⟩ := ih hls h0ls (s := { s with buf := _ }) rfl (i + 1)
        refine ⟨n + 1, ?_⟩
        rw [shell_line hacc h0l hlen hline, if_pos hnil, kept_cons, if_pos hnil]
        exact hn
      · obtain ⟨n, hn⟩ := ih hls h0ls
          ((w.outcome i l).leaves_buf w.kind { s with buf := _ }) (i + 1)
        refine ⟨n + 1, ?_⟩
        rw [shell_line hacc h0l hlen hline, if_neg hnil, if_neg hq, kept_cons, if_neg hnil,
          if_neg hq, hn]
        rfl

/-- A command that keeps the offset changes nothing, and after one that does not the shell has `q`
in its buffer. -/
theorem shell_after {s : Stdin} (ha : w.kind.seekable = true → s.Aligned w.kind)
    (hrest : s.rest = lines ls ++ (exitStr ++ 10 :: more)) (h0 : (0 : UInt8) ∉ lines ls)
    (hp : p + s.rest.length = s.file.data.length)
    (hfits : ∀ l ∈ ls, (10 : UInt8) ∉ l ∧ l.length + 2 ≤ len)
    (hkeep : (w.outcome i l).Keeps w.kind p ∨
      w.kind.seekable = true ∧ p + (lines ls).length + 2 ≤ w.kind.blockEnd p)
    (hnext : ∃ n, shell w accepts n (i + 1) s = some (kept ls)) :
    ∃ n, shell w accepts n (i + 1) ((w.outcome i l).leaves w.kind s) = some (kept ls) := by
  rcases hkeep with hkeep | ⟨hseek, he⟩
  · rw [hkeep.leaves fun hseek => (ha hseek).length_buf hp]
    exact hnext
  · have hbuf : p + (lines ls).length + 2 ≤ p + s.buf.length := by
      rw [(ha hseek).length_buf hp, ← hp, hrest, List.length_append, List.length_append,
        List.length_cons]
      have hone : exitStr.length = 1 := rfl
      omega
    obtain ⟨more', hmore⟩ := buffered_of_length hrest (by omega)
    exact shell_buffered hacc hfits h0 (((w.outcome i l).leaves_buf w.kind s).trans hmore) (i + 1)

theorem shell_takes {s : Stdin} (hs : s.Sound) (ha : w.kind.seekable = true → s.Aligned w.kind)
    (hrest : s.rest = lines ls ++ (exitStr ++ 10 :: more)) (h0 : (0 : UInt8) ∉ lines ls)
    (hp : p + s.rest.length = s.file.data.length)
    (h : w.Takes (p + (lines ls).length + 2) i p ls) :
    ∃ n, shell w accepts n i s = some (kept ls) := by
  induction ls generalizing s i p with
  | nil =>
    obtain ⟨hsound, hline, hrest'⟩ := Stdin.fgets_spec hs w.kind (len - 1)
    have hq : s.rest = exitStr ++ 10 :: more := hrest
    rw [hq, getLine_line _ (by decide), if_pos (by decide)] at hline hrest'
    refine ⟨1, ?_⟩
    rw [shell_line hacc (l := exitStr) (by decide) (by decide) (Prod.ext hline rfl),
      if_neg (by decide), if_pos rfl]
    rfl
  | cons l ls ih =>
    obtain ⟨hl, hlen, hkeep, hls⟩ := h
    rw [lines_cons] at hrest
    rw [← List.append_nil (lines _), lines_cons, List.append_nil] at h0
    have h0l : (0 : UInt8) ∉ l := fun hm => h0 (List.mem_append_left _ hm)
    have h0ls : (0 : UInt8) ∉ lines ls :=
      fun hm => h0 (List.mem_append_right _ (List.mem_cons_of_mem _ hm))
    obtain ⟨hsound, hline, hrest'⟩ := Stdin.fgets_spec hs w.kind (len - 1)
    have halign := fun hseek => (ha hseek).fgets hseek (len - 1)
    have hdata := s.fgets_data w.kind (len - 1)
    rw [hrest, getLine_line _ hl, if_pos (by omega)] at hline hrest'
    generalize hs' : (s.fgets w.kind (len - 1)).2 = s' at hsound hrest' halign hdata
    have hturn := shell_line hacc h0l hlen
      (show s.fgets w.kind (len - 1) = (l ++ [10], s') from Prod.ext hline hs')
    have hrest' : s'.rest = lines ls ++ (exitStr ++ 10 :: more) := hrest'
    have hp' : p + l.length + 1 + s'.rest.length = s'.file.data.length := by
      rw [hdata, ← hp, hrest, List.length_append, List.length_cons, hrest']
      omega
    rw [length_lines_cons, show p + (l.length + 1 + (lines ls).length) + 2 =
      p + l.length + 1 + (lines ls).length + 2 by omega] at hkeep hls
    have hnext := ih hsound halign hrest' h0ls hp' hls
    by_cases hq : l = exitStr
    · refine ⟨1, ?_⟩
      rw [hturn, hq, if_neg (by decide), if_pos rfl]
      rfl
    · by_cases hnil : l = []
      · obtain ⟨n, hn⟩ := hnext
        refine ⟨n + 1, ?_⟩
        rw [hturn, if_pos hnil, kept_cons, if_pos hnil]
        exact hn
      · obtain ⟨n, hn⟩ :=
          shell_after hacc halign hrest' h0ls hp' hls.fits (hkeep.resolve_left hnil) hnext
        refine ⟨n + 1, ?_⟩
        rw [hturn, if_neg hnil, if_neg hq, kept_cons, if_neg hnil, if_neg hq, hn]
        rfl

end

theorem mysh_accepts (cmd : Bytes) (h : cmd.length + 2 ≤ len) : (!tooMany cmd) = true := by
  rw [not_tooMany h]
  rfl

/-- On an input without NUL both shells start the commands that it holds and exit if the line `q` is
in it, ends in a newline and has no line before it of more than 126 characters, and if no command
moves the offset of the input before `q` has been read from it. Where no command can move it, this
is exactly when they do. -/
theorem shell_commands_iff (w : World) (inp : Bytes) (h0 : (0 : UInt8) ∉ inp) :
    (w.Fit inp → Handles (mysh w) inp ∧ Handles (myshSimple w) inp) ∧
      (w.Steady →
        (Handles (mysh w) inp ↔ w.Fit inp) ∧ (Handles (myshSimple w) inp ↔ w.Fit inp)) := by
  constructor
  · rintro ⟨ls, rest, rfl, h⟩
    have h0' : (0 : UInt8) ∉ lines ls := fun hm => h0 (List.mem_append_left _ hm)
    have hcmds := commands_lines (fun l hl => (h.fits l hl).1) rest
    rw [← Nat.zero_add (lines ls).length] at h
    unfold Handles
    rw [hcmds]
    refine ⟨?_, ?_⟩
    · exact shell_takes mysh_accepts (Stdin.start_sound _) (fun _ => Stdin.start_aligned w.kind _)
        (Stdin.start_rest _) h0' (Nat.zero_add _) h
    · exact shell_takes (fun _ _ => rfl) (Stdin.start_sound _)
        (fun _ => Stdin.start_aligned w.kind _) (Stdin.start_rest _) h0' (Nat.zero_add _) h
  · intro hw
    have hmysh : ∀ n, mysh w n inp = started n inp :=
      fun n => shell_eq_started mysh_accepts hw n 0 (Stdin.start_sound inp)
    have hsimple : ∀ n, myshSimple w n inp = started n inp :=
      fun n => shell_eq_started (fun _ _ => rfl) hw n 0 (Stdin.start_sound inp)
    simp only [Handles, hmysh, hsimple, started_iff h0, hw.fit_iff, and_self]

def stBlksize : Nat := 4096

/-- A pipe, with commands that leave it alone. -/
def World.pipe : World := ⟨⟨false, stBlksize, by decide, fun _ => 4095⟩, fun _ _ => .runs 0⟩

/-- A file, with commands that are not found. -/
def World.file (blksize : Nat) (pos : 0 < blksize) : World :=
  ⟨⟨true, blksize, pos, fun _ => 0⟩, fun _ _ => .fails⟩

theorem World.pipe_steady : World.pipe.Steady := fun _ _ => rfl

/-- The lines `ls` and `q`, with an empty one between them, from a pipe and from a file. -/
theorem shell_commands_two_lines :
    commands [108, 115, 10, 10, 113, 10] = [[108, 115]] ∧
      Handles (mysh .pipe) [108, 115, 10, 10, 113, 10] ∧
      Handles (mysh (.file 4096 (by decide))) [108, 115, 10, 10, 113, 10] := by
  have hpipe :=
    (shell_commands_iff .pipe [108, 115, 10, 10, 113, 10] (by decide)).2 World.pipe_steady
  have hfile := shell_commands_iff (.file 4096 (by decide)) [108, 115, 10, 10, 113, 10] (by decide)
  refine ⟨by decide, hpipe.1.mpr ⟨[[108, 115], []], [], rfl, ?_⟩,
    (hfile.1 ⟨[[108, 115], []], [], rfl, ?_⟩).1⟩
  · exact ⟨by decide, by decide, .inr (.inl rfl), by decide, by decide, .inl rfl, trivial⟩
  · exact ⟨by decide, by decide, .inr (.inr ⟨rfl, by decide⟩), by decide, by decide, .inl rfl,
      trivial⟩

/-- The last line `ls` without a newline: the command is `l`, and the shell does not exit. -/
theorem shell_cuts_last_line :
    commands [108, 115] = [[108, 115]] ∧ turn [108, 115] = .command [108] ∧
      ¬ Handles (mysh .pipe) [108, 115] ∧ ¬ Handles (myshSimple .pipe) [108, 115] := by
  have hlast := started_last (l := [108, 115]) (by decide) (by decide)
  refine ⟨by decide, by decide, ?_, ?_⟩
  · rintro ⟨n, h⟩
    rw [mysh, shell_eq_started mysh_accepts World.pipe_steady _ _ (Stdin.start_sound _)] at h
    exact hlast n h
  · rintro ⟨n, h⟩
    rw [myshSimple, shell_eq_started (fun _ _ => rfl) World.pipe_steady _ _ (Stdin.start_sound _)]
      at h
    exact hlast n h

/-- A file of `m` lines `x` and the line `q`, of which `k` lines are buffered. -/
def xLines (m off k : Nat) : Stdin :=
  ⟨⟨lines (List.replicate m [120]) ++ [113, 10], off⟩, lines (List.replicate k [120]), false⟩

theorem lines_xs_succ (k : Nat) :
    lines (List.replicate (k + 1) [120]) = [120] ++ 10 :: lines (List.replicate k [120]) := by
  rw [List.replicate_succ, ← List.append_nil (lines _), lines_cons, List.append_nil]

theorem length_lines_xs (k : Nat) : (lines (List.replicate k [120])).length = 2 * k := by
  induction k with
  | zero => rfl
  | succ k ih =>
    rw [lines_xs_succ, List.length_append, List.length_singleton, List.length_cons, ih]
    omega

theorem xLines_fgets (kind : InputKind) (m off k : Nat) :
    (xLines m off (k + 1)).fgets kind (len - 1) = ([120] ++ [10], xLines m off k) :=
  Stdin.fgets_buffered kind (by decide) (by decide) (lines_xs_succ k)

theorem xLines_refill (kind : InputKind) (hseek : kind.seekable = true)
    (hm : kind.blksize = 2 * (m + 1)) :
    (xLines (m + 1) 0 0).fgets kind (len - 1) =
      ([120] ++ [10], xLines (m + 1) (2 * (m + 1)) m) := by
  have hblock : (xLines (m + 1) 0 0).block kind = 120 :: 10 :: lines (List.replicate m [120]) := by
    rw [Stdin.block, if_pos hseek, hm]
    exact (List.take_left' (length_lines_xs (m + 1))).trans (lines_xs_succ m)
  have hget : (xLines (m + 1) 0 0).getc kind = (some 120, { xLines (m + 1) (2 * (m + 1)) m with
      buf := [] ++ 10 :: lines (List.replicate m [120]) }) := by
    have hlen : 0 + ((10 :: lines (List.replicate m [120])).length + 1) = 2 * (m + 1) := by
      rw [List.length_cons, length_lines_xs]
      omega
    rw [Stdin.getc, hblock]
    simp only [xLines, OpenFile.advance, hlen]
    rfl
  rw [show len - 1 = 126 + 1 from rfl, Stdin.fgets, hget]
  simp only [Stdin.fgets_buffered kind (n := 126) (s := { xLines (m + 1) (2 * (m + 1)) m with
    buf := [] ++ 10 :: lines (List.replicate m [120]) }) List.not_mem_nil (by decide) rfl]
  rfl

theorem xLines_childExit (kind : InputKind) (hseek : kind.seekable = true) (m off k : Nat) :
    (xLines m off k).childExit kind = xLines m (if 2 * k ≤ off then off - 2 * k else off) k := by
  unfold Stdin.childExit xLines
  simp only [hseek, length_lines_xs, true_and]
  split <;> rfl

/-- Where the offset of the file is with `k` lines buffered: the first command of the block has
taken it to 2, and the last but one takes it from there to 0. -/
def offAt (k : Nat) : Nat := if 2 ≤ k then 2 else 0

theorem xLines_turn (kind : InputKind) (hseek : kind.seekable = true) (hblk : kind.blksize = 2 * m)
    (hm : 3 ≤ m) (hk : k < m) :
    ∃ k' s, k' < m ∧ (xLines m (offAt k) k).fgets kind (len - 1) = ([120] ++ [10], s) ∧
      s.childExit kind = xLines m (offAt k') k' := by
  cases k with
  | zero =>
    obtain ⟨m, rfl⟩ : ∃ m', m = m' + 1 := ⟨m - 1, by omega⟩
    refine ⟨m, _, Nat.lt_succ_self m, xLines_refill kind hseek hblk, ?_⟩
    rw [xLines_childExit kind hseek, if_pos (by omega), offAt, if_pos (by omega)]
    congr 1
    omega
  | succ k =>
    refine ⟨k, _, Nat.lt_of_succ_lt hk, xLines_fgets kind m _ k, ?_⟩
    rw [xLines_childExit kind hseek]
    congr 1
    unfold offAt
    grind

/-- A command that is not found has the shell read the block again for ever, if the block is a
file's and the line `q` is behind it. -/
theorem shell_rereads (hm : 3 ≤ m) :
    Orderly (lines (List.replicate m [120]) ++ [113, 10]) ∧
      ∀ n, myshSimple (.file (2 * m) (by omega)) n
        (lines (List.replicate m [120]) ++ [113, 10]) = none := by
  refine ⟨⟨List.replicate m [120], [], rfl, ?_⟩, ?_⟩
  · intro l hl
    rw [List.eq_of_mem_replicate hl]
    decide
  · have hnone : ∀ (n i k : Nat), k < m → shell (.file (2 * m) (by omega)) (fun _ => true) n i
        (xLines m (offAt k) k) = none := by
      intro n
      induction n with
      | zero => exact fun _ _ _ => rfl
      | succ n ih =>
        intro i k hk
        obtain ⟨k', s, hk', hline, hexit⟩ :=
          xLines_turn (World.file (2 * m) (by omega)).kind rfl rfl hm hk
        rw [shell_line (fun _ _ => rfl) (l := [120]) (by decide) (by decide) hline,
          if_neg (by decide), if_neg (by decide), Option.map_eq_none_iff]
        exact (congrArg _ hexit).trans (ih (i + 1) k' hk')
    exact fun n => hnone n 0 0 (by omega)

-- A block of four bytes is read twice: the command in it is run once more, or only empty lines are.
example : myshSimple (.file 4 (by decide)) 9 [120, 10, 120, 10, 113, 10] =
    some [[120], [120], [120]] := by decide

example : Handles (myshSimple (.file 4 (by decide))) [120, 10, 10, 10, 113, 10] :=
  ⟨6, by decide⟩

end SysPrg.Shell
