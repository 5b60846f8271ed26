import SysPrg.FdLoop
import SysPrg.ShmLines

namespace SysPrg.Cpudtl
set_option autoImplicit true

open ShmLines (getLine getLine_append getLine_length_le getLine_ne_nil)

def maxBuf : Nat := 5120

def lineSz : Nat := 128

/-- The memory from the reply buffer on, and the places in it that have been stored to. -/
structure Reply where
  mem : Bytes
  stored : List Nat

/-- `memset(reply, 0, MAXBUF)`, with other memory behind the buffer. -/
def Reply.cleared (behind : Bytes) : Reply := ⟨List.replicate maxBuf 0 ++ behind, List.range maxBuf⟩

/-- `strncat(reply, src, n)`, which stores a terminator behind the characters that it counts. -/
def Reply.strncat (r : Reply) (src : Bytes) (n : Nat) : Reply :=
  let bs := (cStr src).take n ++ [0]
  ⟨writeAt r.mem (strlen r.mem) bs, r.stored ++ List.range' (strlen r.mem) bs.length⟩

/-- The loop of `process_client`: what has been collected of the output, or the message with which
it gives up. -/
def collect (r : Reply) (total : Nat) (out : Bytes) : Reply × Option String :=
  if h : (getLine (lineSz - 1) out).1 = [] then (r, none)
  else
    let tmpbuf := (getLine (lineSz - 1) out).1
    let total := total + strlen tmpbuf
    if total > maxBuf then (r, some "%s: buffer limit exceeded, aborting...\n")
    else
      have : (getLine (lineSz - 1) out).2.length < out.length := by
        have hlen := congrArg List.length (getLine_append (lineSz - 1) out)
        have hpos := List.length_pos_iff.mpr h
        rw [List.length_append] at hlen
        omega
      collect (r.strncat tmpbuf lineSz) total (getLine (lineSz - 1) out).2
termination_by out.length

/-- What the calls before the loop give: the buffer, and the output of one of the two commands. -/
structure Env where
  malloc : Bool
  lscpu : Option CString
  cpuinfo : Option CString

def Env.output (env : Env) : Option CString := env.lscpu <|> env.cpuinfo

def Child.fails (err : String) : Child := ⟨.exited err 1, Stream.fresh.close⟩

/-- `process_client`, with the answers to its writes and its `close`: its end, and the places that
it has stored to from the reply buffer on. -/
def processClient (env : Env) (behind : Bytes) (as : List Answer) : Child × List Nat :=
  if !env.malloc then (.fails "%s: no memory for reply buffer\n", [])
  else
    match env.output with
    | none => (.fails "%s: popen on 'lscpu' failed, trying via procfs\n", List.range maxBuf)
    | some out =>
      match collect (.cleared behind) 0 out.bytes with
      | (r, some err) => (.fails err, r.stored)
      | (r, none) => (run (Child.step r.mem) .start as, r.stored)

def lastLine (bs : Bytes) : Nat := (bs.reverse.takeWhile (· != 10)).length

/-- A piece that `fgets` takes of the output ends after `n` bytes. -/
def CutAt (n : Nat) (out : Bytes) : Prop :=
  n ≤ out.length ∧ (n = out.length ∨ lineSz - 1 ∣ lastLine (out.take n))

theorem lastLine_of_not_mem (h : (10 : UInt8) ∉ bs) : lastLine bs = bs.length := by
  have hall : bs.reverse.takeWhile (· != 10) = bs.reverse := by
    rw [List.takeWhile_eq_self_iff]
    intro b hb
    exact bne_iff_ne.mpr fun h' => h (List.mem_reverse.mp (h' ▸ hb))
  rw [lastLine, hall, List.length_reverse]

theorem lastLine_append (bs : Bytes) (h : (10 : UInt8) ∉ cs) :
    lastLine (bs ++ cs) = lastLine bs + cs.length := by
  have hall : ∀ b ∈ cs.reverse, (b != 10) = true := by
    intro b hb
    exact bne_iff_ne.mpr fun h' => h (List.mem_reverse.mp (h' ▸ hb))
  rw [lastLine, List.reverse_append, List.takeWhile_append_of_pos hall, List.length_append,
    List.length_reverse, Nat.add_comm]
  rfl

theorem lastLine_append_of_mem (bs : Bytes) (h : (10 : UInt8) ∈ cs) :
    lastLine (bs ++ cs) = lastLine cs := by
  have hshort : (cs.reverse.takeWhile (· != 10)).length ≠ cs.reverse.length := by
    intro hlen
    have hself := (List.takeWhile_prefix (· != 10)).eq_of_length hlen
    have h10 := List.takeWhile_eq_self_iff.mp hself 10 (List.mem_reverse.mpr h)
    exact absurd h10 (by decide)
  rw [lastLine, List.reverse_append, List.takeWhile_append, if_neg hshort]
  rfl

theorem getLine_cases (n : Nat) (out : Bytes) :
    (∃ l, (getLine n out).1 = l ++ [10] ∧ (10 : UInt8) ∉ l) ∨
      (10 : UInt8) ∉ (getLine n out).1 ∧
        ((getLine n out).1.length = n ∨ (getLine n out).2 = []) := by
  induction n generalizing out with
  | zero => exact .inr ⟨List.not_mem_nil, .inl rfl⟩
  | succ n ih =>
    cases out with
    | nil => exact .inr ⟨List.not_mem_nil, .inr rfl⟩
    | cons b out =>
      rw [getLine]
      split
      · next hb =>
        subst hb
        exact .inl ⟨[], rfl, List.not_mem_nil⟩
      · next hb =>
        rcases ih out with ⟨l, hl, h10⟩ | ⟨h10, hend⟩
        · exact .inl ⟨b :: l, congrArg (b :: ·) hl,
            List.not_mem_cons_of_ne_of_not_mem (Ne.symm hb) h10⟩
        · exact .inr ⟨List.not_mem_cons_of_ne_of_not_mem (Ne.symm hb) h10,
            hend.imp_left (congrArg Nat.succ)⟩

/-- The end of the first piece is a cut, there is none before it, and those behind it are those of
the rest. -/
theorem cutAt_iff (hn : 0 < n) (out : Bytes) :
    CutAt n out ↔ n = (getLine (lineSz - 1) out).1.length ∨
      (getLine (lineSz - 1) out).1.length < n ∧
        CutAt (n - (getLine (lineSz - 1) out).1.length) (getLine (lineSz - 1) out).2 := by
  have happ := getLine_append (lineSz - 1) out
  have hle := getLine_length_le (lineSz - 1) out
  have hcases := getLine_cases (lineSz - 1) out
  generalize (getLine (lineSz - 1) out).1 = piece at *
  generalize (getLine (lineSz - 1) out).2 = rest at *
  subst happ
  unfold CutAt
  rw [List.length_append]
  rcases Nat.lt_trichotomy n piece.length with hlt | rfl | hgt
  · have h10 : (10 : UInt8) ∉ piece.take n := by
      rcases hcases with ⟨l, rfl, h10⟩ | ⟨h10, -⟩
      · rw [List.length_append, List.length_singleton] at hlt
        rw [List.take_append_of_le_length (by omega)]
        exact fun h => h10 (List.mem_of_mem_take h)
      · exact fun h => h10 (List.mem_of_mem_take h)
    rw [List.take_append_of_le_length (by omega), lastLine_of_not_mem h10, List.length_take]
    constructor
    · rintro ⟨-, h | h⟩
      · omega
      · have := Nat.le_of_dvd (by omega) h
        omega
    · omega
  · rw [List.take_left]
    refine ⟨fun _ => .inl rfl, fun _ => ⟨by omega, ?_⟩⟩
    rcases hcases with ⟨l, rfl, -⟩ | ⟨h10, hlen | rfl⟩
    · right
      rw [lastLine_append_of_mem l List.mem_cons_self]
      exact Nat.dvd_zero _
    · right
      rw [lastLine_of_not_mem h10, hlen]
    · left
      rw [List.length_nil, Nat.add_zero]
  · obtain ⟨j, rfl⟩ := Nat.exists_eq_add_of_le (Nat.le_of_lt hgt)
    have hdvd : j ≤ rest.length → (lineSz - 1 ∣ lastLine (piece ++ rest.take j) ↔
        lineSz - 1 ∣ lastLine (rest.take j)) := by
      intro hj
      by_cases h10 : (10 : UInt8) ∈ rest.take j
      · rw [lastLine_append_of_mem piece h10]
      · rw [lastLine_append piece h10, lastLine_of_not_mem h10]
        rcases hcases with ⟨l, rfl, -⟩ | ⟨h10', hlen | rfl⟩
        · rw [lastLine_append_of_mem l List.mem_cons_self]
          exact iff_of_eq (congrArg _ (Nat.zero_add _))
        · rw [lastLine_of_not_mem h10', hlen]
          exact (Nat.dvd_add_iff_right (Nat.dvd_refl _)).symm
        · rw [List.length_nil] at hj
          omega
    rw [List.take_length_add_append, Nat.add_sub_cancel_left]
    constructor
    · rintro ⟨hj, h⟩
      exact .inr ⟨hgt, by omega, h.imp (by omega) (hdvd (by omega)).mp⟩
    · rintro (h | ⟨-, hj, h⟩)
      · omega
      · exact ⟨by omega, h.imp (by omega) (hdvd hj).mpr⟩

structure Reply.Holds (r : Reply) (str : Bytes) : Prop where
  noNul : (0 : UInt8) ∉ str
  mem : ∃ tail, r.mem = str ++ 0 :: tail

theorem Reply.Holds.cStr_mem {r : Reply} (h : r.Holds str) : cStr r.mem = str := by
  obtain ⟨tail, htail⟩ := h.mem
  rw [htail, cStr_append h.noNul]

theorem cleared_holds (behind : Bytes) : (Reply.cleared behind).Holds [] :=
  ⟨List.not_mem_nil, List.replicate 5119 0 ++ behind, rfl⟩

theorem Reply.Holds.strncat {r : Reply} (h : r.Holds str) (hp : (0 : UInt8) ∉ piece)
    (hlen : piece.length ≤ n) : (r.strncat piece n).Holds (str ++ piece) ∧
      (r.strncat piece n).stored = r.stored ++ List.range' str.length (piece.length + 1) := by
  have hstr : strlen r.mem = str.length := congrArg List.length h.cStr_mem
  have hpiece : (cStr piece).take n ++ [0] = piece ++ [0] := by
    rw [cStr_eq_self hp, List.take_of_length_le hlen]
  obtain ⟨tail, htail⟩ := h.mem
  have hcover := writeAt_cover str r.mem (piece ++ [0])
  rw [htail, List.drop_left, ← htail, ← List.append_assoc str] at hcover
  refine ⟨⟨fun h0 => (List.mem_append.mp h0).elim h.noNul hp, ?_⟩, ?_⟩
  · refine ⟨r.mem.drop (str.length + (piece ++ [0]).length), ?_⟩
    rw [Reply.strncat, hstr, hpiece]
    exact hcover.trans (List.append_assoc _ _ _)
  · rw [Reply.strncat, hstr, hpiece, List.length_append, List.length_singleton]

theorem collect_end (h : (getLine (lineSz - 1) out).1 = []) : collect r total out = (r, none) := by
  rw [collect.eq_def, dif_pos h]

theorem collect_piece (h : (getLine (lineSz - 1) out).1 ≠ []) (ho : (0 : UInt8) ∉ out) :
    collect r total out =
      if total + (getLine (lineSz - 1) out).1.length > maxBuf then
        (r, some "%s: buffer limit exceeded, aborting...\n")
      else collect (r.strncat (getLine (lineSz - 1) out).1 lineSz)
        (total + (getLine (lineSz - 1) out).1.length) (getLine (lineSz - 1) out).2 := by
  have hnul : (0 : UInt8) ∉ (getLine (lineSz - 1) out).1 := by
    rw [← getLine_append (lineSz - 1) out] at ho
    exact fun h0 => ho (List.mem_append_left _ h0)
  rw [collect.eq_def, dif_neg h]
  dsimp only
  rw [strlen_eq_length hnul]

/-- What the loop leaves of an output: it has all of it in the buffer if it does not give up, and it
stores inside the buffer unless a piece ends where the buffer does. -/
theorem collect_spec {r : Reply} (h : r.Holds str) (ho : (0 : UInt8) ∉ out) :
    ((collect r str.length out).2 = none → (collect r str.length out).1.Holds (str ++ out)) ∧
    r.stored <+: (collect r str.length out).1.stored ∧
    (str.length < maxBuf → (∀ a ∈ r.stored, a < maxBuf) →
      ((∀ a ∈ (collect r str.length out).1.stored, a < maxBuf) ↔
        ¬ CutAt (maxBuf - str.length) out)) := by
  induction hn : out.length using Nat.strong_induction_on generalizing r str out with
  | _ n ih =>
    by_cases hnil : out = []
    · subst hnil
      rw [collect_end rfl, List.append_nil]
      refine ⟨fun _ => h, List.prefix_rfl, fun hlt hin => ⟨fun _ hcut => ?_, fun _ => hin⟩⟩
      have hle := hcut.1
      rw [List.length_nil] at hle
      omega
    · have hpiece := getLine_ne_nil 126 hnil
      have hcut := fun hpos => cutAt_iff (n := maxBuf - str.length) hpos out
      have happ := getLine_append (lineSz - 1) out
      have hshort := getLine_length_le (lineSz - 1) out
      rw [collect_piece hpiece ho]
      change (getLine (lineSz - 1) out).1 ≠ [] at hpiece
      generalize (getLine (lineSz - 1) out).1 = piece at *
      generalize (getLine (lineSz - 1) out).2 = rest at *
      have hpos := List.length_pos_iff.mpr hpiece
      split
      · next hbig =>
        refine ⟨fun h0 => (by cases h0), List.prefix_rfl, fun hlt hin =>
          ⟨fun _ hc => ?_, fun _ => hin⟩⟩
        rcases (hcut (by omega)).mp hc with h' | ⟨h', -⟩
        · omega
        · omega
      · next hfit =>
        subst happ
        obtain ⟨hp0, hr0⟩ : (0 : UInt8) ∉ piece ∧ (0 : UInt8) ∉ rest :=
          ⟨fun h0 => ho (List.mem_append_left _ h0), fun h0 => ho (List.mem_append_right _ h0)⟩
        obtain ⟨hcat, hstored⟩ := h.strncat hp0 (n := lineSz) (by omega)
        obtain ⟨hnone, hpre, hin⟩ := ih rest.length (by rw [List.length_append] at hn; omega) hcat
          hr0 rfl
        rw [List.length_append] at hnone hpre hin
        rw [List.append_assoc] at hnone
        refine ⟨hnone, (List.prefix_append _ _).trans (hstored ▸ hpre), fun hlt hold => ?_⟩
        rw [hcut (by omega)]
        by_cases hend : str.length + piece.length = maxBuf
        · -- the terminator is the byte behind the buffer
          have hmem : maxBuf ∈ (r.strncat piece lineSz).stored := by
            rw [hstored, List.mem_append, List.mem_range'_1]
            omega
          exact ⟨fun hall => absurd (hall maxBuf (hpre.subset hmem)) (Nat.lt_irrefl _),
            fun hno => absurd (.inl (by omega)) hno⟩
        · have hnew : ∀ a ∈ (r.strncat piece lineSz).stored, a < maxBuf := by
            intro a ha
            rw [hstored, List.mem_append, List.mem_range'_1] at ha
            rcases ha with ha | ha
            · exact hold a ha
            · omega
          rw [hin (by omega) hnew, Nat.sub_sub]
          constructor
          · rintro hno (h' | ⟨-, h'⟩)
            · omega
            · exact hno h'
          · exact fun hno h' => hno (.inr ⟨by omega, h'⟩)

def wholeOrFails (n : Nat) : Answer → Prop
  | .done k => n ≤ k + 1
  | .fail _ => True

/-- The process has sent the output and returned, or it has exited with failure and sent nothing. -/
def AllOrNothing (env : Env) (c : Child) : Prop :=
  (∃ out, env.output = some out ∧ c = ⟨.returned 0, ⟨out.bytes, 0, true⟩⟩) ∨
    ∃ err status, status ≠ 0 ∧ c = ⟨.exited err status, Stream.fresh.close⟩

/-- What `process_client` has to do, for a socket that takes the reply at once or fails. -/
structure Serves (env : Env) (behind : Bytes) : Prop where
  inside : ∀ as, ∀ a ∈ (processClient env behind as).2, a < maxBuf
  answered : ∀ a a' as, (∀ out ∈ env.output, wholeOrFails out.bytes.length a) →
    AllOrNothing env (processClient env behind (a :: a' :: as)).1

theorem child_run {r : Reply} (h : r.Holds str) (hw : wholeOrFails str.length a) (a' : Answer)
    (as : List Answer) :
    run (Child.step r.mem) .start (a :: a' :: as) = ⟨.returned 0, ⟨str, 0, true⟩⟩ ∨
      run (Child.step r.mem) .start (a :: a' :: as) =
        ⟨.exited "socket write error" 6, Stream.fresh.close⟩ := by
  have hstr : strlen r.mem = str.length := congrArg List.length h.cStr_mem
  cases a with
  | done k =>
    have hrun := Child.run_whole (hstr.trans_le hw) a' as
    rw [h.cStr_mem] at hrun
    exact .inl hrun
  | fail e =>
    right
    rw [run_cons]
    exact run_fixed (fun _ => rfl) _

theorem processClient_answered (env : Env) (behind : Bytes) (a a' : Answer) (as : List Answer)
    (h : ∀ out ∈ env.output, wholeOrFails out.bytes.length a) :
    AllOrNothing env (processClient env behind (a :: a' :: as)).1 := by
  have hfails : ∀ err, AllOrNothing env (.fails err) := fun err => .inr ⟨err, 1, by decide, rfl⟩
  unfold processClient
  split
  · exact hfails _
  · split
    · exact hfails _
    · next out hout =>
      have hspec := (collect_spec (cleared_holds behind) out.noNul).1
      rw [List.length_nil, List.nil_append] at hspec
      split
      · exact hfails _
      · next r hr =>
        rw [hr] at hspec
        rcases child_run (hspec rfl) (h out hout) a' as with hrun | hrun
        · exact .inl ⟨out, hout, hrun⟩
        · exact .inr ⟨_, 6, by decide, hrun⟩

theorem range_inside : ∀ a ∈ List.range maxBuf, a < maxBuf := by
  intro a ha
  rwa [List.mem_range] at ha

theorem cleared_stored (behind : Bytes) : (Reply.cleared behind).stored = List.range maxBuf := by
  rw [Reply.cleared]

theorem collect_inside (behind : Bytes) (out : CString) :
    (∀ a ∈ (collect (.cleared behind) 0 out.bytes).1.stored, a < maxBuf) ↔
      ¬ CutAt maxBuf out.bytes := by
  have hspec := (collect_spec (cleared_holds behind) out.noNul).2.2
  rw [cleared_stored, List.length_nil, Nat.sub_zero] at hspec
  exact hspec (Nat.succ_pos 5119) range_inside

theorem processClient_inside (env : Env) (behind : Bytes) (as : List Answer) :
    (∀ a ∈ (processClient env behind as).2, a < maxBuf) ↔
      (env.malloc = true → ∀ out ∈ env.output, ¬ CutAt maxBuf out.bytes) := by
  unfold processClient
  split
  · next hm =>
    rw [Bool.not_eq_true'] at hm
    rw [hm]
    exact ⟨fun _ h => (by cases h), fun _ a ha => (by cases ha)⟩
  · next hm =>
    split
    · next hout =>
      rw [hout]
      refine ⟨fun _ _ out h => (by cases h), fun _ a ha => ?_⟩
      dsimp only at ha
      exact range_inside a ha
    · next out hout =>
      have hiff : (env.malloc = true → ∀ out' ∈ env.output, ¬ CutAt maxBuf out'.bytes) ↔
          ¬ CutAt maxBuf out.bytes := by
        rw [Bool.not_eq_true', Bool.not_eq_false] at hm
        simp only [hm, hout, true_imp_iff, Option.mem_some_iff, forall_eq']
      rw [hiff, ← collect_inside behind out]
      rcases collect (.cleared behind) 0 out.bytes with ⟨r, _ | err⟩
      · exact Iff.rfl
      · exact Iff.rfl

/-- The reply is stored inside the buffer, and all of the output is sent or nothing, exactly when
the output does not have a piece that ends where the buffer does. -/
theorem reply_served_iff (env : Env) (behind : Bytes) :
    Serves env behind ↔
      (env.malloc = true → ∀ out ∈ env.output, ¬ CutAt maxBuf out.bytes) := by
  constructor
  · intro h
    exact (processClient_inside env behind []).mp (h.inside [])
  · intro h
    exact ⟨fun as => (processClient_inside env behind as).mpr h, processClient_answered env behind⟩

def fullOutput : CString :=
  ⟨List.replicate maxBuf 97, fun h => absurd (List.eq_of_mem_replicate h) (by decide)⟩

/-- The terminator of that output is stored behind the buffer. -/
theorem reply_stored_outside :
    ¬ (∀ a ∈ (processClient ⟨true, some fullOutput, none⟩ [] []).2, a < maxBuf) ∧
    ¬ Serves ⟨true, some fullOutput, none⟩ [] := by
  have hcut : CutAt maxBuf fullOutput.bytes := by
    have hlen : fullOutput.bytes.length = maxBuf := List.length_replicate
    exact ⟨hlen.ge, .inl hlen.symm⟩
  have houtside : ¬ ∀ a ∈ (processClient ⟨true, some fullOutput, none⟩ [] []).2, a < maxBuf :=
    fun h => (processClient_inside _ [] []).mp h rfl fullOutput rfl hcut
  exact ⟨houtside, fun h => houtside (h.inside [])⟩

end SysPrg.Cpudtl
