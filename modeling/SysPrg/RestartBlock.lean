import SysPrg.RestartCopy

namespace SysPrg.RestartCopy
set_option autoImplicit true

/-- The variables of the loop in `readblock`; `bufp` is the offset from `buf`. -/
structure ReadBlock where
  bufp : Nat
  bytestoread : Nat
  totalbytes : Nat
  deriving DecidableEq, Repr

inductive ReadLoop where
  | again (r : ReadBlock)
  | ret (v : Int) (errno : Option Errno)
  deriving DecidableEq, Repr

def ReadBlock.enter (r : ReadBlock) : ReadLoop :=
  if 0 < r.bytestoread then .again r else .ret r.totalbytes none

def readblock (size : Nat) : ReadLoop := ReadBlock.enter ⟨0, size, 0⟩

/-- One iteration of `readblock`, from the return of its `read`. -/
def ReadBlock.resume (r : ReadBlock) : Except Errno Nat → ReadLoop
  | .error .eintr => r.enter
  | .error e => .ret (-1) (some e)
  | .ok bytesread =>
    if bytesread = 0 then if r.totalbytes = 0 then .ret 0 none else .ret (-1) (some .einval)
    else ReadBlock.enter
      ⟨r.bufp + bytesread, r.bytestoread - bytesread, r.totalbytes + bytesread⟩

theorem ReadBlock.resume_error (r : ReadBlock) (he : e ≠ .eintr) :
    r.resume (.error e) = .ret (-1) (some e) := by
  cases e with
  | eintr => exact (he rfl).elim
  | _ => rfl

/-- Where `readwriteblock` is: in its `readblock`, or in its `r_write`. -/
inductive BlockPc where
  | read (buf : Bytes) (r : ReadBlock)
  | write (buf : Bytes) (w : RWrite)
  | ret (v : Int) (errno : Option Errno)
  deriving DecidableEq, Repr

def wroteWhole (buf : Bytes) (errno : Option Errno) : WriteLoop → BlockPc
  | .again w => .write buf w
  | .ret v => .ret v errno

/-- From inside `readblock` or its return: anything but `size` is returned at once. -/
def gotWhole (size : Nat) (buf : Bytes) : ReadLoop → BlockPc
  | .again r => .read buf r
  | .ret v errno => if v ≠ size then .ret v errno else wroteWhole buf none (rWrite size)

def errnoOf : Answer → Option Errno
  | .fail e => some e
  | .done _ => none

def readwriteblock (size : Nat) : BlockPc → World → Answer → BlockPc × World
  | .read buf r, w, a =>
    match w.read r.bytestoread a with
    | none => (.read buf r, w)
    | some (.error e, w') => (gotWhole size buf (r.resume (.error e)), w')
    | some (.ok bs, w') =>
      (gotWhole size (writeAt buf r.bufp bs) (r.resume (.ok bs.length)), w')
  | .write buf r, w, a =>
    (wroteWhole buf (errnoOf a) (r.resume (w.write r buf a).1), (w.write r buf a).2)
  | .ret v e, w, _ => (.ret v e, w)

def World.AtEnd (w : World) : Prop := w.src.shut = true ∧ w.src.rd = w.src.wr.length

/-- The ways `readwriteblock` returns: with a block moved, at the end of the input, with a block of
which the input has only a part, or, unless it was a `clean` run, with a call that failed. -/
def Outcome (clean : Bool) (size : Nat) (w : World) (got held : Bytes) (v : Int)
    (errno : Option Errno) : Prop :=
  v = size ∧ got.length = size ∧ held = [] ∨
    v = 0 ∧ got = [] ∧ held = [] ∧ w.AtEnd ∨
    v = -1 ∧ errno = some .einval ∧ 0 < got.length ∧ got.length < size ∧ held = got ∧ w.AtEnd ∨
    clean = false ∧ v = -1 ∧ held.length ≤ got.length ∧ got.length ≤ size

def BlockPc.Moves (clean : Bool) (size : Nat) (w : World) (got held : Bytes) : BlockPc → Prop
  | .read buf r => 0 < r.bytestoread ∧ r.bufp + r.bytestoread = size ∧ r.totalbytes = r.bufp ∧
      buf.length = size ∧ got.length = r.bufp ∧ buf.take r.bufp = got ∧ held = got
  | .write buf r => buf.length = size ∧ r.Inside buf ∧ got = buf ∧ held = r.left buf
  | .ret v errno => Outcome clean size w got held v errno

theorem take_writeAt (h : off + bs.length ≤ buf.length) (hb : bs ≠ []) :
    (writeAt buf off bs).take (off + bs.length) = buf.take off ++ bs ∧
      (writeAt buf off bs).length = buf.length := by
  have hoff : off - buf.length = 0 := by omega
  have htake : (buf.take off).length = off := by
    rw [List.length_take]
    omega
  simp only [writeAt, hb, if_false, hoff, List.replicate_zero, List.append_nil]
  constructor
  · rw [List.take_append_of_le_length]
    · exact List.take_of_length_le (by rw [List.length_append, htake])
    · rw [List.length_append, htake]
  · simp only [List.length_append, List.length_drop, htake]
    omega

theorem moves_gotBytes (h : BlockPc.Moves clean size w got held (.read buf r)) (hb : bs ≠ [])
    (hle : bs.length ≤ r.bytestoread) (w' : World) :
    (gotWhole size (writeAt buf r.bufp bs) (r.resume (.ok bs.length))).Moves clean size w'
      (got ++ bs) (got ++ bs) := by
  obtain ⟨_, hsum, htot, hbuf, hgot, htake, _⟩ := h
  have hpos : bs.length ≠ 0 := fun he => hb (List.length_eq_zero_iff.1 he)
  have hfit : r.bufp + bs.length ≤ buf.length := by omega
  obtain ⟨htake', hlen'⟩ := take_writeAt hfit hb
  simp only [ReadBlock.resume, hpos, if_false, ReadBlock.enter]
  split
  · next hmore =>
    refine ⟨hmore, ?_, ?_, ?_, ?_, ?_, rfl⟩
    · simp only
      omega
    · simp only
      omega
    · omega
    · rw [List.length_append, hgot]
    · rw [htake', htake]
  · next hdone =>
    -- the whole buffer has been read
    have hsize : r.bufp + bs.length = size := by omega
    have hv : ((r.totalbytes + bs.length : Nat) : Int) = size := by rw [htot, hsize]
    have hall : writeAt buf r.bufp bs = got ++ bs := by
      rw [← htake, ← htake', List.take_of_length_le]
      omega
    have hne : got ++ bs ≠ [] := fun he => hb (List.append_eq_nil_iff.1 he).2
    have hlen : (got ++ bs).length = size := by
      rw [List.length_append, hgot, hsize]
    obtain ⟨r', hr', hin, hleft⟩ := rWrite_spec hne
    rw [hlen] at hr'
    simp only [gotWhole, hv, ne_eq, not_true_eq_false, if_false, hr', wroteWhole, hall]
    exact ⟨hlen, hin, rfl, hleft.symm⟩

theorem moves_read (h : BlockPc.Moves clean size w got held (.read buf r))
    (hrel : Relayed w₀ w got held) (hsize : 0 < size) (a : Answer)
    (hclean : clean = true → breaks a = false) :
    ∃ got' held', Relayed w₀ (readwriteblock size (.read buf r) w a).2 got' held' ∧
      (readwriteblock size (.read buf r) w a).1.Moves clean size
        (readwriteblock size (.read buf r) w a).2 got' held' := by
  obtain ⟨hpos, hsum, htot, hbuf, hgot, htake, rfl⟩ := h
  have h : BlockPc.Moves clean size w held held (.read buf r) :=
    ⟨hpos, hsum, htot, hbuf, hgot, htake, rfl⟩
  cases a with
  | fail e =>
    by_cases he : e = .eintr
    · subst he
      simp only [readwriteblock, World.read, ReadBlock.resume, ReadBlock.enter, hpos, if_true,
        gotWhole]
      exact ⟨held, held, hrel, h⟩
    · have hres := r.resume_error he
      have hne : (-1 : Int) ≠ size := by omega
      simp only [readwriteblock, World.read, hres, gotWhole, hne, ne_eq, not_false_eq_true, if_true]
      refine ⟨held, held, hrel, .inr (.inr (.inr ⟨?_, rfl, Nat.le_refl _, by omega⟩))⟩
      refine Bool.eq_false_iff.2 fun hc => ?_
      exact he (not_not.1 (of_decide_eq_false (hclean hc)))
  | done k =>
    cases hrecv : w.src.recv k r.bytestoread with
    | none =>
      simp only [readwriteblock, World.read, hrecv, Option.map_none]
      exact ⟨held, held, hrel, h⟩
    | some p =>
      obtain ⟨bs, t⟩ := p
      have hrel' := hrel.recv hpos hrecv
      obtain ⟨_, _, _, hle, _, _⟩ := Stream.recv_spec hpos hrel.rd hrecv
      simp only [readwriteblock, World.read, hrecv, Option.map_some]
      by_cases hb : bs = []
      · subst hb
        have hend := recv_nil hpos hrel.rd hrecv
        rw [List.append_nil] at hrel'
        simp only [List.length_nil, ReadBlock.resume, if_true]
        split
        · next hz =>
          have hne : (0 : Int) ≠ size := by omega
          have hnil : held = [] := List.length_eq_zero_iff.1 (by omega)
          subst hnil
          simp only [gotWhole, hne, ne_eq, not_false_eq_true, if_true]
          exact ⟨[], [], hrel', .inr (.inl ⟨rfl, rfl, rfl, hend⟩)⟩
        · next hz =>
          have hne : (-1 : Int) ≠ size := by omega
          simp only [gotWhole, hne, ne_eq, not_false_eq_true, if_true]
          exact ⟨held, held, hrel',
            .inr (.inr (.inl ⟨rfl, rfl, by omega, by omega, rfl, hend⟩))⟩
      · exact ⟨held ++ bs, held ++ bs, hrel', moves_gotBytes h hb hle _⟩

theorem moves_write (h : BlockPc.Moves clean size w got held (.write buf r))
    (hrel : Relayed w₀ w got held) (a : Answer) (hclean : clean = true → breaks a = false) :
    ∃ held', Relayed w₀ (readwriteblock size (.write buf r) w a).2 got held' ∧
      (readwriteblock size (.write buf r) w a).1.Moves clean size
        (readwriteblock size (.write buf r) w a).2 got held' := by
  obtain ⟨hbuf, hin, rfl, rfl⟩ := h
  simp only [readwriteblock]
  cases a with
  | fail e =>
    by_cases he : e = .eintr
    · subst he
      simp only [World.write, hin.resume_eintr, wroteWhole]
      exact ⟨_, hrel, hbuf, hin, rfl, rfl⟩
    · simp only [World.write, r.resume_error he, wroteWhole]
      refine ⟨_, hrel, .inr (.inr (.inr ⟨?_, rfl, left_length_le hin, Nat.le_of_eq hbuf⟩))⟩
      refine Bool.eq_false_iff.2 fun hc => ?_
      exact he (not_not.1 (of_decide_eq_false (hclean hc)))
  | done k =>
    simp only [World.write]
    rcases hin.resume_chunk k with ⟨hret, hall⟩ | ⟨r', hagain, hin', happ⟩
    · rw [← hall, ← List.append_nil (chunk k r.bytestowrite (r.left got))] at hrel
      rw [hret]
      exact ⟨[], hrel.write, .inl ⟨by rw [hbuf], hbuf, rfl⟩⟩
    · rw [← happ] at hrel
      rw [hagain]
      exact ⟨r'.left got, hrel.write, hbuf, hin', rfl, rfl⟩

def MovesBlock (clean : Bool) (size : Nat) (w₀ : World) (s : Sys BlockPc) : Prop :=
  ∃ got held, Relayed w₀ s.world got held ∧ s.pc.Moves clean size s.world got held

theorem BlockPc.Moves.later {pc : BlockPc} (h : pc.Moves clean size w got held)
    (hend : w.AtEnd → w'.AtEnd) : pc.Moves clean size w' got held := by
  cases pc with
  | read buf r => exact h
  | write buf r => exact h
  | ret v e =>
    rcases h with h | ⟨hv, hg, hh, he⟩ | ⟨hv, hn, h0, hlt, hh, he⟩ | h
    · exact .inl h
    · exact .inr (.inl ⟨hv, hg, hh, hend he⟩)
    · exact .inr (.inr (.inl ⟨hv, hn, h0, hlt, hh, hend he⟩))
    · exact .inr (.inr (.inr h))

theorem MovesBlock.step (h : MovesBlock clean size w₀ s) (hsize : 0 < size) (e : Ev)
    (hclean : clean = true → fails s e = false) :
    MovesBlock clean size w₀ (s.step (readwriteblock size) e) := by
  obtain ⟨got, held, hrel, hm⟩ := h
  cases e with
  | call a =>
    cases hpc : s.pc with
    | read buf r =>
      rw [hpc] at hm
      simp only [Sys.step, hpc]
      exact moves_read hm hrel hsize a hclean
    | write buf r =>
      rw [hpc] at hm
      obtain ⟨held', hrel', hm'⟩ := moves_write hm hrel a hclean
      simp only [Sys.step, hpc]
      exact ⟨got, held', hrel', hm'⟩
    | ret v e =>
      rw [hpc] at hm
      simp only [Sys.step, hpc]
      exact ⟨got, held, hrel, hm⟩
  | arrive bs =>
    refine ⟨got, held, hrel.arrive bs, hm.later fun hend => ?_⟩
    have hw : s.world.arrive bs = s.world := if_pos hend.1
    simp only [Sys.step, hw]
    exact hend
  | close => exact ⟨got, held, hrel.close, hm.later fun hend => ⟨rfl, hend.2⟩⟩

def BlockPc.left (size : Nat) : BlockPc → Nat
  | .read _ r => r.bytestoread + size
  | .write buf r => (r.left buf).length
  | .ret _ _ => 0

def BlockPc.Returned : BlockPc → Prop
  | .ret _ _ => True
  | .read _ _ | .write _ _ => False

theorem BlockPc.Moves.left_le {pc : BlockPc} (h : pc.Moves clean size w got held) :
    pc.left size ≤ 2 * size := by
  cases pc with
  | read buf r =>
    have hsum := h.2.1
    simp only [BlockPc.left]
    omega
  | write buf r =>
    obtain ⟨hbuf, hin, -⟩ := h
    have := left_length_le hin
    simp only [BlockPc.left]
    omega
  | ret v e => exact Nat.zero_le _

theorem gotBytes_left (h : BlockPc.Moves clean size w got held (.read buf r)) (hb : bs ≠ [])
    (hle : bs.length ≤ r.bytestoread) :
    (gotWhole size (writeAt buf r.bufp bs) (r.resume (.ok bs.length))).left size + 1 ≤
      (BlockPc.read buf r).left size := by
  have hpos : 0 < bs.length := List.length_pos_iff.2 hb
  have hm := moves_gotBytes h hb hle w
  cases hpc : gotWhole size (writeAt buf r.bufp bs) (r.resume (.ok bs.length)) with
  | read buf' r' =>
    have hr : r'.bytestoread + bs.length = r.bytestoread := by
      simp only [ReadBlock.resume, Nat.ne_of_gt hpos, if_false, ReadBlock.enter] at hpc
      split at hpc
      · cases hpc
        simp only
        omega
      · simp only [gotWhole] at hpc
        split at hpc
        · cases hpc
        · cases hw : rWrite size with
          | again x =>
            rw [hw] at hpc
            cases hpc
          | ret v =>
            rw [hw] at hpc
            cases hpc
    simp only [BlockPc.left]
    omega
  | write buf' r' =>
    rw [hpc] at hm
    have hlen := left_length_le hm.2.1
    have hsize := hm.1
    simp only [BlockPc.left]
    omega
  | ret v e =>
    simp only [BlockPc.left]
    omega

theorem readwriteblock_left (hm : BlockPc.Moves clean size w got held pc) (hs : w.src.shut = true)
    (hsize : 0 < size) (a : Answer) :
    (readwriteblock size pc w a).1.Returned ∨ (readwriteblock size pc w a).2.src.shut = true ∧
      (readwriteblock size pc w a).1.left size + (succeeds (.call a)).toNat ≤ pc.left size := by
  cases pc with
  | ret v e => exact .inl trivial
  | write buf r =>
    obtain ⟨_, hin, _, _⟩ := hm
    simp only [readwriteblock]
    cases a with
    | fail e =>
      by_cases he : e = .eintr
      · subst he
        simp only [World.write, hin.resume_eintr, wroteWhole]
        exact .inr ⟨hs, Nat.le_refl _⟩
      · simp only [World.write, r.resume_error he, wroteWhole]
        exact .inl trivial
    | done k =>
      simp only [World.write]
      rcases hin.resume_chunk k with ⟨hret, _⟩ | ⟨r', hagain, _, happ⟩
      · rw [hret]
        exact .inl trivial
      · have hc := chunk_left_pos hin k
        have hlen := congrArg List.length happ
        rw [List.length_append] at hlen
        rw [hagain]
        simp only [wroteWhole, BlockPc.left, succeeds, Bool.toNat_true]
        exact .inr ⟨hs, by omega⟩
  | read buf r =>
    have hpos : 0 < r.bytestoread := hm.1
    cases a with
    | fail e =>
      by_cases he : e = .eintr
      · subst he
        simp only [readwriteblock, World.read, ReadBlock.resume, ReadBlock.enter, hpos, if_true,
          gotWhole]
        exact .inr ⟨hs, Nat.le_refl _⟩
      · have hres := r.resume_error he
        have hne : (-1 : Int) ≠ size := by omega
        simp only [readwriteblock, World.read, hres, gotWhole, hne, ne_eq, not_false_eq_true,
          if_true]
        exact .inl trivial
    | done k =>
      obtain ⟨bs, t, hrecv⟩ := recv_of_shut hs k r.bytestoread
      obtain ⟨_, hsh, hle⟩ := recv_inFlight hrecv
      simp only [readwriteblock, World.read, hrecv, Option.map_some]
      by_cases hb : bs = []
      · subst hb
        have hz : (0 : Int) ≠ size := by omega
        have hne : (-1 : Int) ≠ size := by omega
        simp only [List.length_nil, ReadBlock.resume, if_true]
        split
        · simp only [gotWhole, hz, ne_eq, not_false_eq_true, if_true]
          exact .inl trivial
        · simp only [gotWhole, hne, ne_eq, not_false_eq_true, if_true]
          exact .inl trivial
      · exact .inr ⟨hsh.trans hs, gotBytes_left hm hb hle⟩

/-- `readwriteblock` from its call, into a buffer of `size` bytes. -/
def Sys.block (w : World) (size : Nat) (buf : Bytes) : Sys BlockPc :=
  ⟨w, gotWhole size buf (readblock size)⟩

theorem block_moves {w₀ : World} (h₀ : w₀.src.rd ≤ w₀.src.wr.length) (hsize : 0 < size)
    (hbuf : buf.length = size) (clean : Bool) :
    MovesBlock clean size w₀ (Sys.block w₀ size buf) := by
  refine ⟨[], [], .refl h₀, ?_⟩
  simp only [Sys.block, readblock, ReadBlock.enter, hsize, if_true, gotWhole]
  exact ⟨hsize, Nat.zero_add _, rfl, hbuf, rfl, rfl, rfl⟩

/-- `readwriteblock` in every run, with calls that are interrupted or move only some of the bytes:
it returns `size` exactly when it has moved the next `size` bytes, in order. It returns 0 at the end
of the input, having moved nothing, and -1 with `EINVAL` when the input ends inside a block, which
is then lost. Otherwise a call has failed. From when the input is closed it takes only so many
successful calls to return. -/
theorem readwriteblock_moves {w₀ : World} (h₀ : w₀.src.rd ≤ w₀.src.wr.length) (hsize : 0 < size)
    (hbuf : buf.length = size) (es : List Ev) :
    let s := run (Sys.step (readwriteblock size)) (.block w₀ size buf) es
    (∃ got held, s.world.src.wr.take s.world.src.rd = w₀.src.wr.take w₀.src.rd ++ got ∧
      s.world.dst ++ held = w₀.dst ++ got ∧
      ∀ v errno, s.pc = .ret v errno → Outcome false size s.world got held v errno) ∧
    (saw fails (Sys.step (readwriteblock size)) (.block w₀ size buf) es = false →
      ∃ got held, s.world.src.wr.take s.world.src.rd = w₀.src.wr.take w₀.src.rd ++ got ∧
        s.world.dst ++ held = w₀.dst ++ got ∧
        ∀ v errno, s.pc = .ret v errno → Outcome true size s.world got held v errno) ∧
    (s.world.src.shut = true → ∀ es', 2 * size < es'.countP succeeds → ∃ v errno,
      (run (Sys.step (readwriteblock size)) (.block w₀ size buf) (es ++ es')).pc =
        .ret v errno) := by
  intro s
  have hmoves : MovesBlock false size w₀ s := run_invariant (MovesBlock false size w₀)
    (fun _ e hs => hs.step hsize e nofun) (block_moves h₀ hsize hbuf false) es
  have houtcome : ∀ clean, MovesBlock clean size w₀ s → ∃ got held,
      s.world.src.wr.take s.world.src.rd = w₀.src.wr.take w₀.src.rd ++ got ∧
      s.world.dst ++ held = w₀.dst ++ got ∧
      ∀ v errno, s.pc = .ret v errno → Outcome clean size s.world got held v errno := by
    rintro clean ⟨got, held, hrel, hm⟩
    refine ⟨got, held, hrel.read, hrel.written, ?_⟩
    intro v errno hpc
    rw [hpc] at hm
    exact hm
  refine ⟨?_, ?_, ?_⟩
  · exact houtcome false hmoves
  · intro hf
    exact houtcome true (run_invariant_of (MovesBlock true size w₀)
      (fun _ e he hs => hs.step hsize e fun _ => he) (block_moves h₀ hsize hbuf true) hf)
  · intro hshut es' hn
    have hleft : s.pc.left size < es'.countP succeeds := by
      obtain ⟨got, held, _, hm⟩ := hmoves
      exact hm.left_le.trans_lt hn
    have hret : (run (Sys.step (readwriteblock size)) s es').pc.Returned := by
      refine returns_of_shut (MovesBlock false size w₀) BlockPc.Returned
        (fun pc _ => pc.left size) (fun _ e hs => hs.step hsize e nofun) ?_ (fun _ _ => rfl) ?_
        hmoves hshut hleft
      · intro pc w a hr
        cases pc with
        | ret v e => trivial
        | read buf r | write buf r => exact hr.elim
      · rintro s a ⟨_, _, _, hm⟩ hs
        exact readwriteblock_left hm hs hsize a
    rw [run_append]
    cases hpc : (run (Sys.step (readwriteblock size)) s es').pc with
    | ret v e => exact ⟨v, e, rfl⟩
    | read buf r | write buf r =>
      rw [hpc] at hret
      exact hret.elim

theorem readwriteblock_moves_file :
    (run (Sys.step (readwriteblock 2)) (.block .file 2 [0, 0]) fileCalls).pc = .ret 2 none ∧
      ∃ got held, (run (Sys.step (readwriteblock 2)) (.block .file 2 [0, 0]) fileCalls).world.dst ++
          held = World.file.dst ++ got ∧
        Outcome true 2 (run (Sys.step (readwriteblock 2)) (.block .file 2 [0, 0]) fileCalls).world
          got held 2 none := by
  have h₀ : World.file.src.rd ≤ World.file.src.wr.length := by decide
  have hf : saw fails (Sys.step (readwriteblock 2)) (.block .file 2 [0, 0]) fileCalls = false := by
    decide +kernel
  have hpc : (run (Sys.step (readwriteblock 2)) (.block .file 2 [0, 0]) fileCalls).pc =
      .ret 2 none := by decide +kernel
  have h := (readwriteblock_moves h₀ Nat.two_pos rfl fileCalls).2.1 hf
  obtain ⟨got, held, _, hdst, hout⟩ := h
  exact ⟨hpc, got, held, hdst, hout 2 none hpc⟩

end SysPrg.RestartCopy
