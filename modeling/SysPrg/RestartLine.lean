import SysPrg.Block
import SysPrg.RestartBlock

namespace SysPrg.RestartCopy
set_option autoImplicit true

/-- Where `readline` is. A store outside the buffer is an `overrun`. -/
inductive LinePc where
  | read (numread : Nat) (buf : Bytes)
  | ret (v : Int) (errno : Option Errno) (buf : Bytes)
  | overrun
  deriving DecidableEq, Repr

def LinePc.enter (nbytes : Int) (numread : Nat) (buf : Bytes) : LinePc :=
  if numread < nbytes - 1 then .read numread buf else .ret (-1) (some .einval) buf

def gotByte (nbytes : Int) (numread : Nat) (buf : Bytes) (b : UInt8) : LinePc :=
  match store buf numread [b] with
  | none => .overrun
  | some buf =>
    if b = 10 then
      match store buf (numread + 1) [0] with
      | none => .overrun
      | some buf => .ret (numread + 1 : Nat) none buf
    else .enter nbytes (numread + 1) buf

/-- One iteration of `readline`, from the return of its `read` of one byte. -/
def readline (nbytes : Int) : LinePc → World → Answer → LinePc × World
  | .read numread buf, w, a =>
    match w.read 1 a with
    | none => (.read numread buf, w)
    | some (.error .eintr, w') => (.read numread buf, w')
    | some (.error e, w') => (.ret (-1) (some e) buf, w')
    | some (.ok [], w') =>
      (if numread = 0 then .ret 0 none buf else .ret (-1) (some .einval) buf, w')
    | some (.ok (b :: _), w') => (gotByte nbytes numread buf b, w')
  | .ret v e buf, w, _ => (.ret v e buf, w)
  | .overrun, w, _ => (.overrun, w)

/-- The ways `readline` returns: with a line and its terminator, at the end of the input, with a
line that the buffer or the input cuts off, or, unless it was a `clean` run, with a call that
failed. -/
def LineOutcome (clean : Bool) (w : World) (buf₀ got : Bytes) (v : Int) (errno : Option Errno)
    (buf : Bytes) : Prop :=
  (∃ text, (10 : UInt8) ∉ text ∧ got = text ++ [10] ∧ v = got.length ∧ got.length < buf₀.length ∧
      buf = got ++ 0 :: buf₀.drop (got.length + 1)) ∨
    v = 0 ∧ got = [] ∧ w.AtEnd ∨
    v = -1 ∧ errno = some .einval ∧ (10 : UInt8) ∉ got ∧
      (got.length = buf₀.length - 1 ∨ 0 < got.length ∧ w.AtEnd) ∨
    clean = false ∧ v = -1 ∧ (10 : UInt8) ∉ got ∧ got.length < buf₀.length

def LinePc.Reads (clean : Bool) (w : World) (buf₀ got : Bytes) : LinePc → Prop
  | .read numread buf => numread = got.length ∧ got.length + 1 < buf₀.length ∧
      (10 : UInt8) ∉ got ∧ buf = got ++ buf₀.drop got.length
  | .ret v errno buf => LineOutcome clean w buf₀ got v errno buf
  | .overrun => False

def ReadsLine (clean : Bool) (w₀ : World) (buf₀ : Bytes) (s : Sys LinePc) : Prop :=
  ∃ got, Relayed w₀ s.world got got ∧ s.pc.Reads clean s.world buf₀ got

theorem store_next {buf₀ got : Bytes} (h : got.length < buf₀.length) (b : UInt8) :
    store (got ++ buf₀.drop got.length) got.length [b] =
      some ((got ++ [b]) ++ buf₀.drop (got.length + 1)) := by
  rw [store_over]
  · simp only [List.append_assoc, List.length_singleton, List.drop_drop]
  · rw [List.length_drop, List.length_singleton]
    omega

theorem gotByte_reads (hl : got.length + 1 < buf₀.length) (hn : (10 : UInt8) ∉ got)
    (b : UInt8) (w : World) (clean : Bool) :
    (gotByte buf₀.length got.length (got ++ buf₀.drop got.length) b).Reads clean w buf₀
      (got ++ [b]) := by
  have hlen : (got ++ [b]).length = got.length + 1 := List.length_append
  have hstore := store_next (Nat.lt_of_succ_lt hl) b
  simp only [gotByte, hstore]
  split
  · next hb =>
    subst hb
    have hend : store ((got ++ [10]) ++ buf₀.drop (got.length + 1)) (got.length + 1) [0] =
        some (((got ++ [10]) ++ [0]) ++ buf₀.drop (got.length + 1 + 1)) := by
      have hroom : (got ++ [10]).length < buf₀.length := by omega
      rw [← hlen]
      exact store_next hroom 0
    rw [hend]
    refine .inl ⟨got, hn, rfl, by rw [hlen], by omega, ?_⟩
    rw [hlen, List.append_assoc (got ++ [10]) [0]]
    rfl
  · next hb =>
    have hn' : (10 : UInt8) ∉ got ++ [b] := by
      rw [List.mem_append, List.mem_singleton]
      rintro (h | h)
      · exact hn h
      · exact hb h.symm
    unfold LinePc.enter
    split
    · next hlt =>
      refine ⟨hlen.symm, by omega, hn', ?_⟩
      rw [hlen]
    · next hge => exact .inr (.inr (.inl ⟨rfl, rfl, hn', .inl (by omega)⟩))

theorem readline_error (he : e ≠ .eintr) (nbytes : Int) (numread : Nat) (buf : Bytes) (w : World) :
    readline nbytes (.read numread buf) w (.fail e) = (.ret (-1) (some e) buf, w) := by
  cases e with
  | eintr => exact (he rfl).elim
  | _ => rfl

theorem readline_reads (h : LinePc.Reads clean w buf₀ got (.read numread buf))
    (hrel : Relayed w₀ w got got) (a : Answer) (hclean : clean = true → breaks a = false) :
    ∃ got', Relayed w₀ (readline buf₀.length (.read numread buf) w a).2 got' got' ∧
      (readline buf₀.length (.read numread buf) w a).1.Reads clean
        (readline buf₀.length (.read numread buf) w a).2 buf₀ got' := by
  obtain ⟨rfl, hl, hn, rfl⟩ := h
  cases a with
  | fail e =>
    by_cases he : e = .eintr
    · subst he
      exact ⟨got, hrel, rfl, hl, hn, rfl⟩
    · rw [readline_error he]
      refine ⟨got, hrel, .inr (.inr (.inr ⟨?_, rfl, hn, by omega⟩))⟩
      refine Bool.eq_false_iff.2 fun hc => ?_
      exact he (not_not.1 (of_decide_eq_false (hclean hc)))
  | done k =>
    cases hrecv : w.src.recv k 1 with
    | none =>
      simp only [readline, World.read, hrecv, Option.map_none]
      exact ⟨got, hrel, rfl, hl, hn, rfl⟩
    | some p =>
      obtain ⟨bs, t⟩ := p
      have hrel' := hrel.recv Nat.one_pos hrecv
      cases bs with
      | nil =>
        have hend := recv_nil Nat.one_pos hrel.rd hrecv
        rw [List.append_nil] at hrel'
        simp only [readline, World.read, hrecv, Option.map_some]
        refine ⟨got, hrel', ?_⟩
        split
        · next hz => exact .inr (.inl ⟨rfl, List.length_eq_zero_iff.1 hz, hend⟩)
        · next hz => exact .inr (.inr (.inl ⟨rfl, rfl, hn, .inr ⟨Nat.pos_of_ne_zero hz, hend⟩⟩))
      | cons b rest =>
        have hone : rest = [] := by
          have hle := (recv_inFlight hrecv).2.2
          rw [List.length_cons] at hle
          exact List.length_eq_zero_iff.1 (by omega)
        subst hone
        simp only [readline, World.read, hrecv, Option.map_some]
        exact ⟨got ++ [b], hrel', gotByte_reads hl hn b _ clean⟩

theorem LinePc.Reads.later {pc : LinePc} (h : pc.Reads clean w buf₀ got)
    (hend : w.AtEnd → w'.AtEnd) : pc.Reads clean w' buf₀ got := by
  cases pc with
  | read numread buf => exact h
  | overrun => exact h
  | ret v e buf =>
    rcases h with h | ⟨hv, hg, he⟩ | ⟨hv, hn, hno, hlen⟩ | h
    · exact .inl h
    · exact .inr (.inl ⟨hv, hg, hend he⟩)
    · exact .inr (.inr (.inl ⟨hv, hn, hno, hlen.imp_right fun ⟨hp, he⟩ => ⟨hp, hend he⟩⟩))
    · exact .inr (.inr (.inr h))

theorem World.AtEnd.arrive {w : World} (h : w.AtEnd) (bs : Bytes) : (w.arrive bs).AtEnd := by
  have hw : w.arrive bs = w := if_pos h.1
  rw [hw]
  exact h

theorem ReadsLine.step (h : ReadsLine clean w₀ buf₀ s) (e : Ev)
    (hclean : clean = true → fails s e = false) :
    ReadsLine clean w₀ buf₀ (s.step (readline buf₀.length) e) := by
  obtain ⟨got, hrel, hr⟩ := h
  cases e with
  | call a =>
    cases hpc : s.pc with
    | read numread buf =>
      rw [hpc] at hr
      simp only [Sys.step, hpc]
      exact readline_reads hr hrel a hclean
    | ret v e buf =>
      rw [hpc] at hr
      simp only [Sys.step, hpc]
      exact ⟨got, hrel, hr⟩
    | overrun =>
      rw [hpc] at hr
      exact hr.elim
  | arrive bs => exact ⟨got, hrel.arrive bs, hr.later fun hend => hend.arrive bs⟩
  | close => exact ⟨got, hrel.close, hr.later fun hend => ⟨rfl, hend.2⟩⟩

def LinePc.left (n : Nat) : LinePc → Nat
  | .read numread _ => n - numread
  | .ret _ _ _ | .overrun => 0

def LinePc.Returned : LinePc → Prop
  | .ret _ _ _ => True
  | .read _ _ | .overrun => False

theorem readline_left (h : LinePc.Reads clean w buf₀ got (.read numread buf))
    (hs : w.src.shut = true) (a : Answer) :
    (readline buf₀.length (.read numread buf) w a).1.Returned ∨
      (readline buf₀.length (.read numread buf) w a).2.src.shut = true ∧
      (readline buf₀.length (.read numread buf) w a).1.left buf₀.length +
        (succeeds (.call a)).toNat ≤ (LinePc.read numread buf).left buf₀.length := by
  obtain ⟨rfl, hl, hn, rfl⟩ := h
  cases a with
  | fail e =>
    by_cases he : e = .eintr
    · subst he
      exact .inr ⟨hs, Nat.le_refl _⟩
    · rw [readline_error he]
      exact .inl trivial
  | done k =>
    obtain ⟨bs, t, hrecv⟩ := recv_of_shut hs k 1
    obtain ⟨_, hsh, _⟩ := recv_inFlight hrecv
    cases bs with
    | nil =>
      simp only [readline, World.read, hrecv, Option.map_some]
      split <;> exact .inl trivial
    | cons b rest =>
      simp only [readline, World.read, hrecv, Option.map_some]
      have hr := gotByte_reads hl hn b w clean
      cases hpc : gotByte buf₀.length got.length (got ++ buf₀.drop got.length) b with
      | ret v e buf => exact .inl trivial
      | overrun =>
        rw [hpc] at hr
        exact hr.elim
      | read numread' buf' =>
        rw [hpc] at hr
        have hnum := hr.1
        rw [List.length_append, List.length_singleton] at hnum
        refine .inr ⟨hsh.trans hs, ?_⟩
        simp only [LinePc.left, succeeds, Bool.toNat_true]
        omega

def Sys.line (w : World) (buf : Bytes) : Sys LinePc := ⟨w, .enter buf.length 0 buf⟩

theorem line_reads {w₀ : World} (h₀ : w₀.src.rd ≤ w₀.src.wr.length) (hbuf : buf₀ ≠ [])
    (clean : Bool) : ReadsLine clean w₀ buf₀ (.line w₀ buf₀) := by
  have hpos : 0 < buf₀.length := List.length_pos_iff.2 hbuf
  refine ⟨[], .refl h₀, ?_⟩
  unfold Sys.line LinePc.enter
  simp only
  split
  · next hlt => exact ⟨rfl, by simp only [List.length_nil]; omega, List.not_mem_nil, rfl⟩
  · next hge =>
    refine .inr (.inr (.inl ⟨rfl, rfl, List.not_mem_nil, .inl ?_⟩))
    simp only [List.length_nil]
    omega

/-- `readline` in every run, whatever interrupts it: it stores within its buffer only, and returns a
line as it was written, terminated, and the number of its bytes, when the buffer has room for it.
What is behind the line is left unread. A line that is too long is given up with `EINVAL` after
`nbytes - 1` bytes, and so is one that the end of the input cuts off. -/
theorem readline_lines {w₀ : World} (h₀ : w₀.src.rd ≤ w₀.src.wr.length) (hbuf : buf₀ ≠ [])
    (es : List Ev) :
    let s := run (Sys.step (readline buf₀.length)) (.line w₀ buf₀) es
    s.pc ≠ .overrun ∧ s.world.dst = w₀.dst ∧
    (∃ got, s.world.src.wr.take s.world.src.rd = w₀.src.wr.take w₀.src.rd ++ got ∧
      ∀ v errno buf, s.pc = .ret v errno buf → LineOutcome false s.world buf₀ got v errno buf) ∧
    (saw fails (Sys.step (readline buf₀.length)) (.line w₀ buf₀) es = false →
      ∃ got, s.world.src.wr.take s.world.src.rd = w₀.src.wr.take w₀.src.rd ++ got ∧
        ∀ v errno buf, s.pc = .ret v errno buf → LineOutcome true s.world buf₀ got v errno buf) ∧
    (w₀.src.shut = true → buf₀.length < es.countP succeeds →
      ∃ v errno buf, s.pc = .ret v errno buf) := by
  intro s
  have houtcome : ∀ clean, ReadsLine clean w₀ buf₀ s → ∃ got,
      s.world.src.wr.take s.world.src.rd = w₀.src.wr.take w₀.src.rd ++ got ∧
      ∀ v errno buf, s.pc = .ret v errno buf → LineOutcome clean s.world buf₀ got v errno buf := by
    rintro clean ⟨got, hrel, hr⟩
    refine ⟨got, hrel.read, ?_⟩
    intro v errno buf hpc
    rw [hpc] at hr
    exact hr
  have hinv : ReadsLine false w₀ buf₀ s :=
    run_invariant (ReadsLine false w₀ buf₀) (fun _ e hs => hs.step e nofun)
      (line_reads h₀ hbuf false) es
  refine ⟨?_, ?_, houtcome false hinv, ?_, ?_⟩
  · obtain ⟨_, _, hr⟩ := hinv
    intro hpc
    rw [hpc] at hr
    exact hr
  · obtain ⟨got, hrel, _⟩ := hinv
    exact List.append_cancel_right hrel.written
  · intro hf
    exact houtcome true (run_invariant_of (ReadsLine true w₀ buf₀)
      (fun _ e he hs => hs.step e fun _ => he) (line_reads h₀ hbuf true) hf)
  · intro hshut hn
    have hleft : (Sys.line w₀ buf₀).pc.left buf₀.length < es.countP succeeds := by
      unfold Sys.line LinePc.enter
      simp only
      split
      · exact hn
      · exact Nat.zero_lt_of_lt hn
    have hret : s.pc.Returned := by
      refine returns_of_shut (ReadsLine false w₀ buf₀) LinePc.Returned
        (fun pc _ => pc.left buf₀.length) (fun _ e hs => hs.step e nofun) ?_ (fun _ _ => rfl) ?_
        (line_reads h₀ hbuf false) hshut hleft
      · intro pc w a hr
        cases pc with
        | ret v e buf => trivial
        | read numread buf | overrun => exact hr.elim
      · rintro s a ⟨_, _, hr⟩ hs
        cases hpc : s.pc with
        | read numread buf =>
          rw [hpc] at hr
          exact readline_left hr hs a
        | ret v e buf => exact .inl trivial
        | overrun =>
          rw [hpc] at hr
          exact hr.elim
    cases hpc : s.pc with
    | ret v e buf => exact ⟨v, e, buf, rfl⟩
    | read numread buf | overrun =>
      rw [hpc] at hret
      exact hret.elim

def World.lines : World := ⟨⟨[97, 10, 98, 10], 0, true⟩, []⟩

theorem readline_lines_first :
    (run (Sys.step (readline 4)) (.line .lines [9, 9, 9, 9]) fileCalls).pc =
        .ret 2 none [97, 10, 0, 9] ∧
      (run (Sys.step (readline 4)) (.line .lines [9, 9, 9, 9]) fileCalls).world.dst = [] := by
  have h₀ : World.lines.src.rd ≤ World.lines.src.wr.length := by decide
  have hbuf : ([9, 9, 9, 9] : Bytes) ≠ [] := nofun
  exact ⟨by decide +kernel, (readline_lines h₀ hbuf fileCalls).2.1⟩

end SysPrg.RestartCopy
