import SysPrg.Restart
import SysPrg.Run

namespace SysPrg.RestartCopy
set_option autoImplicit true

def blksize : Nat := 4096

/-- What is behind `fromfd`, and what has been written to `tofd`. -/
structure World where
  src : Stream
  dst : Bytes
  deriving DecidableEq, Repr

/-- A call returns, or the other end of `fromfd` writes or closes. -/
inductive Ev where
  | call (a : Answer)
  | arrive (bs : Bytes)
  | close
  deriving DecidableEq, Repr

def World.arrive (w : World) (bs : Bytes) : World :=
  if w.src.shut then w else { w with src := w.src.send bs }

def World.close (w : World) : World := { w with src := w.src.close }

/-- A `read` of at most `count` bytes from `fromfd`: `none` while it blocks. -/
def World.read (w : World) (count : Nat) : Answer → Option (Except Errno Bytes × World)
  | .fail e => some (.error e, w)
  | .done k => (w.src.recv k count).map fun r => (.ok r.1, { w with src := r.2 })

def World.write (w : World) (r : RWrite) (buf : Bytes) : Answer → Except Errno Nat × World
  | .fail e => (.error e, w)
  | .done k =>
    let bs := chunk k r.bytestowrite (r.left buf)
    (.ok bs.length, { w with dst := w.dst ++ bs })

structure Sys (ρ : Type) where
  world : World
  pc : ρ

def Sys.step (call : ρ → World → Answer → ρ × World) (s : Sys ρ) : Ev → Sys ρ
  | .call a => ⟨(call s.pc s.world a).2, (call s.pc s.world a).1⟩
  | .arrive bs => { s with world := s.world.arrive bs }
  | .close => { s with world := s.world.close }

/-- Where `copyfile` is: in the `r_read` or in the `r_write` of its `readwrite`. -/
inductive CopyPc where
  | read (totalbytes : Int)
  | write (totalbytes : Int) (buf : Bytes) (w : RWrite)
  | ret (v : Int)
  deriving DecidableEq, Repr

/-- From inside `r_write` or its return. `copyfile` goes on if `readwrite` was successful, and
otherwise returns what it has counted up to then. -/
def wroteBlock (totalbytes : Int) (buf : Bytes) : WriteLoop → CopyPc
  | .again w => .write totalbytes buf w
  | .ret v => if v < 0 then .ret totalbytes else .read (toInt (totalbytes + buf.length))

def gotBlock (totalbytes : Int) : Except Errno Bytes → CopyPc
  | .error _ => .ret totalbytes
  | .ok buf =>
    if buf.length = 0 then .ret totalbytes else wroteBlock totalbytes buf (rWrite buf.length)

def copyfile : CopyPc → World → Answer → CopyPc × World
  | .read total, w, a =>
    match w.read blksize a with
    | none => (.read total, w)
    | some (r, w') =>
      match rRead r with
      | none => (.read total, w')
      | some r => (gotBlock total r, w')
  | .write total buf r, w, a =>
    (wroteBlock total buf (r.resume (w.write r buf a).1), (w.write r buf a).2)
  | .ret v, w, _ => (.ret v, w)

def breaks : Answer → Bool
  | .fail e => e ≠ .eintr
  | .done _ => false

def fails (_ : Sys ρ) : Ev → Bool
  | .call a => breaks a
  | .arrive _ | .close => false

def succeeds : Ev → Bool
  | .call (.done _) => true
  | _ => false

/-- What has been read since `w₀` has been written, but for what is in hand. -/
structure Relayed (w₀ w : World) (got held : Bytes) : Prop where
  rd : w.src.rd ≤ w.src.wr.length
  read : w.src.wr.take w.src.rd = w₀.src.wr.take w₀.src.rd ++ got
  written : w.dst ++ held = w₀.dst ++ got

theorem Relayed.refl {w : World} (h : w.src.rd ≤ w.src.wr.length) : Relayed w w [] [] :=
  ⟨h, (List.append_nil _).symm, rfl⟩

theorem Relayed.arrive (h : Relayed w₀ w got held) (bs : Bytes) :
    Relayed w₀ (w.arrive bs) got held := by
  unfold World.arrive
  split
  · exact h
  · refine ⟨h.rd.trans ?_, ?_, h.written⟩
    · simp only [Stream.send, List.length_append]
      omega
    · simp only [Stream.send, List.take_append_of_le_length h.rd]
      exact h.read

theorem Relayed.close (h : Relayed w₀ w got held) : Relayed w₀ w.close got held :=
  ⟨h.rd, h.read, h.written⟩

theorem Relayed.recv (h : Relayed w₀ w got held) (hc : 0 < count)
    (hr : w.src.recv k count = some (bs, t)) :
    Relayed w₀ { w with src := t } (got ++ bs) (held ++ bs) := by
  obtain ⟨_, _, hle, _, htake, _⟩ := Stream.recv_spec hc h.rd hr
  refine ⟨hle, ?_, ?_⟩
  · simp only [htake, h.read, List.append_assoc]
  · simp only [← List.append_assoc, h.written]

theorem recv_nil {s t : Stream} (hc : 0 < count) (hrd : s.rd ≤ s.wr.length)
    (h : s.recv k count = some ([], t)) : t.shut = true ∧ t.rd = t.wr.length := by
  obtain ⟨hwr, hshut, hle, _, htake, hnil⟩ := Stream.recv_spec hc hrd h
  refine ⟨hshut.trans (hnil rfl).2, ?_⟩
  rw [List.append_nil] at htake
  have hlen := congrArg List.length (htake.trans (hnil rfl).1)
  rw [List.length_take, ← hwr] at hlen
  omega

theorem Relayed.write (h : Relayed w₀ w got (bs ++ rest)) :
    Relayed w₀ { w with dst := w.dst ++ bs } got rest :=
  ⟨h.rd, h.read, (List.append_assoc _ _ _).trans h.written⟩

theorem Relayed.sent (h : Relayed w₀ w got held) (hs : held <:+ got) :
    ∃ sent, w.dst = w₀.dst ++ sent ∧ got = sent ++ held := by
  obtain ⟨sent, rfl⟩ := hs
  have hw := h.written
  rw [← List.append_assoc] at hw
  exact ⟨sent, List.append_cancel_right hw, rfl⟩

theorem Relayed.got_eq (h : Relayed w₀ w got held) (h₀ : w₀.src.rd ≤ w₀.src.wr.length)
    (hrd : w.src.rd = w.src.wr.length) : got = w.src.wr.drop w₀.src.rd := by
  have hr := h.read
  rw [hrd, List.take_length] at hr
  have hlen : (w₀.src.wr.take w₀.src.rd).length = w₀.src.rd := by
    rw [List.length_take]
    exact Nat.min_eq_left h₀
  rw [hr, List.drop_append_of_le_length (Nat.le_of_eq hlen.symm),
    List.drop_eq_nil_of_le (Nat.le_of_eq hlen), List.nil_append]

theorem toInt_add (a b : Int) : toInt (toInt a + b) = toInt (a + b) := by
  unfold toInt
  exact Int.bmod_add_bmod

/-- What the variables of `copyfile` have to do with what was read and what is in hand: the end of
the block that was read last, which has not been counted. -/
def CopyPc.Counts (got held : Bytes) : CopyPc → Prop
  | .read total => held = [] ∧ total = toInt got.length
  | .write total buf r => r.Inside buf ∧ held = r.left buf ∧ buf.length ≤ blksize ∧
      ∃ whole, got = whole ++ buf ∧ total = toInt whole.length
  | .ret v => ∃ whole block, got = whole ++ block ∧ held <:+ block ∧ (held = [] → block = []) ∧
      block.length ≤ blksize ∧ v = toInt whole.length

def CopyPc.Whole (w : World) (got held : Bytes) : CopyPc → Prop
  | .ret v => held = [] ∧ v = toInt got.length ∧ w.src.shut = true ∧ w.src.rd = w.src.wr.length
  | .read _ | .write _ _ _ => True

theorem left_length_le (h : RWrite.Inside r buf) : (r.left buf).length ≤ buf.length :=
  h.left_suffix.length_le

theorem CopyPc.Counts.held_suffix {pc : CopyPc} (h : pc.Counts got held) :
    held <:+ got ∧ held.length ≤ blksize := by
  cases pc with
  | read total =>
    rw [h.1]
    exact ⟨List.nil_suffix, Nat.zero_le _⟩
  | write total buf r =>
    obtain ⟨hin, rfl, hle, whole, rfl, _⟩ := h
    exact ⟨hin.left_suffix.trans (List.suffix_append _ _), (left_length_le hin).trans hle⟩
  | ret v =>
    obtain ⟨whole, block, rfl, hs, -, hle, _⟩ := h
    exact ⟨hs.trans (List.suffix_append _ _), hs.length_le.trans hle⟩

theorem counts_gotBlock (hn : total = toInt got.length) (hb : bs ≠ []) (hle : bs.length ≤ blksize) :
    (gotBlock total (.ok bs)).Counts (got ++ bs) bs ∧
      (gotBlock total (.ok bs)).Whole w (got ++ bs) bs := by
  obtain ⟨r, hr, hin, hleft⟩ := rWrite_spec hb
  have hlen : bs.length ≠ 0 := fun h => hb (List.length_eq_zero_iff.1 h)
  simp only [gotBlock, hlen, if_false, hr, wroteBlock]
  exact ⟨⟨hin, hleft.symm, hle, got, rfl, hn⟩, trivial⟩

/-- One return of `write`: it has taken some of what is in hand, and the loops go on from there. -/
theorem counts_wroteBlock (h : Relayed w₀ w (whole ++ buf) (r.left buf)) (hin : r.Inside buf)
    (hle : buf.length ≤ blksize) (ht : total = toInt whole.length) (a : Answer) :
    ∃ held, Relayed w₀ (w.write r buf a).2 (whole ++ buf) held ∧
      (wroteBlock total buf (r.resume (w.write r buf a).1)).Counts (whole ++ buf) held ∧
      (breaks a = false →
        (wroteBlock total buf (r.resume (w.write r buf a).1)).Whole (w.write r buf a).2
          (whole ++ buf) held) := by
  cases a with
  | fail e =>
    by_cases he : e = .eintr
    · subst he
      simp only [World.write, hin.resume_eintr, wroteBlock]
      exact ⟨_, h, ⟨hin, rfl, hle, whole, rfl, ht⟩, fun _ => trivial⟩
    · simp only [World.write, r.resume_error he, wroteBlock]
      have hleft : r.left buf ≠ [] := by
        rw [← List.length_pos_iff, hin.left_length]
        exact hin.pending
      refine ⟨_, h, ⟨whole, buf, rfl, hin.left_suffix, fun hnil => (hleft hnil).elim, hle, ht⟩, ?_⟩
      intro hf
      exact (he (not_not.1 (of_decide_eq_false hf))).elim
  | done k =>
    simp only [World.write]
    rcases hin.resume_chunk k with ⟨hret, hall⟩ | ⟨r', hagain, hin', happ⟩
    · rw [hret]
      rw [← hall, ← List.append_nil (chunk k r.bytestowrite (r.left buf))] at h
      have hpos : ¬ (buf.length : Int) < 0 := by omega
      simp only [wroteBlock, hpos, if_false]
      refine ⟨[], ?_, ⟨rfl, ?_⟩, fun _ => trivial⟩
      · exact h.write
      · rw [ht, toInt_add, List.length_append, Int.natCast_add]
    · rw [hagain]
      rw [← happ] at h
      exact ⟨r'.left buf, h.write, ⟨hin', rfl, hle, whole, rfl, ht⟩, fun _ => trivial⟩

theorem rRead_error (he : e ≠ .eintr) : rRead (.error e) = some (.error e) := by
  cases e with
  | eintr => exact (he rfl).elim
  | _ => rfl

theorem counts_ret (ht : total = toInt got.length) : (CopyPc.ret total).Counts got [] :=
  ⟨got, [], (List.append_nil _).symm, List.nil_suffix, fun _ => rfl, Nat.zero_le _, ht⟩

theorem counts_call (h : Relayed w₀ w got held) (hc : CopyPc.Counts got held pc) (a : Answer) :
    ∃ got' held', Relayed w₀ (copyfile pc w a).2 got' held' ∧
      (copyfile pc w a).1.Counts got' held' ∧
      (breaks a = false → pc.Whole w got held →
        (copyfile pc w a).1.Whole (copyfile pc w a).2 got' held') := by
  cases pc with
  | ret v => exact ⟨got, held, h, hc, fun _ hw => hw⟩
  | write total buf r =>
    obtain ⟨hin, rfl, hle, whole, rfl, ht⟩ := hc
    obtain ⟨held', hrel, hcount, hwhole⟩ := counts_wroteBlock h hin hle ht a
    exact ⟨whole ++ buf, held', hrel, hcount, fun hf _ => hwhole hf⟩
  | read total =>
    obtain ⟨rfl, ht⟩ := hc
    cases a with
    | fail e =>
      by_cases he : e = .eintr
      · subst he
        exact ⟨got, [], h, ⟨rfl, ht⟩, fun _ _ => trivial⟩
      · simp only [copyfile, World.read, rRead_error he, gotBlock]
        refine ⟨got, [], h, counts_ret ht, ?_⟩
        intro hf
        exact (he (not_not.1 (of_decide_eq_false hf))).elim
    | done k =>
      cases hrecv : w.src.recv k blksize with
      | none =>
        simp only [copyfile, World.read, hrecv, Option.map_none]
        exact ⟨got, [], h, ⟨rfl, ht⟩, fun _ _ => trivial⟩
      | some p =>
        obtain ⟨bs, t⟩ := p
        have hrel := h.recv (by decide) hrecv
        simp only [copyfile, World.read, hrecv, Option.map_some, rRead, restart]
        by_cases hb : bs = []
        · subst hb
          rw [List.append_nil, List.append_nil] at hrel
          exact ⟨got, [], hrel, counts_ret ht,
            fun _ _ => ⟨rfl, ht, recv_nil (by decide) h.rd hrecv⟩⟩
        · obtain ⟨_, _, _, hle, _, _⟩ := Stream.recv_spec (by decide) h.rd hrecv
          obtain ⟨hcount, hwhole⟩ := counts_gotBlock ht hb hle
          exact ⟨got ++ bs, bs, hrel, hcount, fun _ _ => hwhole⟩

def Copies (w₀ : World) (s : Sys CopyPc) : Prop :=
  ∃ got held, Relayed w₀ s.world got held ∧ s.pc.Counts got held

def CopiesAll (w₀ : World) (s : Sys CopyPc) : Prop :=
  ∃ got held, Relayed w₀ s.world got held ∧ s.pc.Counts got held ∧ s.pc.Whole s.world got held

theorem Copies.step (h : Copies w₀ s) (e : Ev) : Copies w₀ (s.step copyfile e) := by
  obtain ⟨got, held, hrel, hc⟩ := h
  cases e with
  | call a =>
    obtain ⟨got', held', hrel', hc', _⟩ := counts_call hrel hc a
    exact ⟨got', held', hrel', hc'⟩
  | arrive bs => exact ⟨got, held, hrel.arrive bs, hc⟩
  | close => exact ⟨got, held, hrel.close, hc⟩

theorem CopyPc.Whole.arrive {pc : CopyPc} (h : pc.Whole w got held) (bs : Bytes) :
    pc.Whole (w.arrive bs) got held := by
  cases pc with
  | ret v =>
    obtain ⟨hh, hv, hs, hr⟩ := h
    have hw : w.arrive bs = w := if_pos hs
    rw [hw]
    exact ⟨hh, hv, hs, hr⟩
  | read total => trivial
  | write total buf r => trivial

theorem CopyPc.Whole.close {pc : CopyPc} (h : pc.Whole w got held) :
    pc.Whole w.close got held := by
  cases pc with
  | ret v => exact ⟨h.1, h.2.1, rfl, h.2.2.2⟩
  | read total => trivial
  | write total buf r => trivial

theorem CopiesAll.step (h : CopiesAll w₀ s) (e : Ev) (he : fails s e = false) :
    CopiesAll w₀ (s.step copyfile e) := by
  obtain ⟨got, held, hrel, hc, hw⟩ := h
  cases e with
  | call a =>
    obtain ⟨got', held', hrel', hc', hw'⟩ := counts_call hrel hc a
    exact ⟨got', held', hrel', hc', hw' he hw⟩
  | arrive bs => exact ⟨got, held, hrel.arrive bs, hc, hw.arrive bs⟩
  | close => exact ⟨got, held, hrel.close, hc, hw.close⟩

def CopyPc.left (w : World) : CopyPc → Nat
  | .read _ => 2 * w.src.inFlight.length + 1
  | .write _ buf r => 2 * w.src.inFlight.length + (r.left buf).length + 1
  | .ret _ => 0

def CopyPc.Returned : CopyPc → Prop
  | .ret _ => True
  | .read _ | .write _ _ _ => False

theorem recv_inFlight {s t : Stream} (h : s.recv k count = some (bs, t)) :
    t.inFlight.length + bs.length = s.inFlight.length ∧ t.shut = s.shut ∧ bs.length ≤ count := by
  simp only [Stream.recv] at h
  split at h
  · cases h
  · cases h
    have hl := chunk_length k count s.inFlight
    simp only [Stream.inFlight, List.length_drop] at hl ⊢
    exact ⟨by omega, trivial, by omega⟩

theorem recv_of_shut {s : Stream} (h : s.shut = true) (k count : Nat) :
    ∃ bs t, s.recv k count = some (bs, t) := by
  simp only [Stream.recv]
  split
  · next hb =>
    rw [h] at hb
    cases hb.2
  · exact ⟨_, _, rfl⟩

theorem chunk_left_pos (h : RWrite.Inside r buf) (k : Nat) :
    0 < (chunk k r.bytestowrite (r.left buf)).length := by
  have hl := chunk_length k r.bytestowrite (r.left buf)
  have hp := h.pending
  have hlen := h.left_length
  omega

/-- A function that reads until it has returned comes to its return once the input is closed, when
its calls succeed often enough. -/
theorem returns_of_shut {call : ρ → World → Answer → ρ × World} (I : Sys ρ → Prop) (ret : ρ → Prop)
    (left : ρ → World → Nat) (hI : ∀ s e, I s → I (s.step call e))
    (hret : ∀ pc w a, ret pc → ret (call pc w a).1)
    (hclose : ∀ pc w, left pc w.close = left pc w)
    (hleft : ∀ s a, I s → s.world.src.shut = true → ret (call s.pc s.world a).1 ∨
      (call s.pc s.world a).2.src.shut = true ∧
      left (call s.pc s.world a).1 (call s.pc s.world a).2 + (succeeds (.call a)).toNat ≤
        left s.pc s.world)
    (hs : I s) (hshut : s.world.src.shut = true) (hn : left s.pc s.world < es.countP succeeds) :
    ret (run (Sys.step call) s es).pc := by
  refine run_halts (p := fun _ _ => false) (fun s => I s ∧ s.world.src.shut = true)
    (fun s => ret s.pc) succeeds (fun s => left s.pc s.world) ?_ ?_ ⟨hs, hshut⟩
    (saw_eq_false_of_forall (fun _ _ _ => rfl) _) hn
  · intro s e hs
    cases e with
    | call a => exact hret s.pc s.world a hs
    | arrive bs => exact hs
    | close => exact hs
  · intro s e _ hs
    have hstep := hI s e hs.1
    cases e with
    | call a =>
      exact (hleft s a hs.1 hs.2).imp_right fun ⟨hsh, hle⟩ => ⟨⟨hstep, hsh⟩, hle⟩
    | arrive bs =>
      have hw : s.world.arrive bs = s.world := if_pos hs.2
      refine .inr ⟨⟨hstep, ?_⟩, Nat.le_of_eq ?_⟩
      · simp only [Sys.step, hw]
        exact hs.2
      · simp only [Sys.step, hw]
        rfl
    | close => exact .inr ⟨⟨hstep, rfl⟩, Nat.le_of_eq (hclose s.pc s.world)⟩

theorem wroteBlock_left (hin : RWrite.Inside r buf) (total : Int) (w : World) (a : Answer) :
    (wroteBlock total buf (r.resume (w.write r buf a).1)).Returned ∨
      (wroteBlock total buf (r.resume (w.write r buf a).1)).left (w.write r buf a).2 +
        (succeeds (.call a)).toNat ≤ (CopyPc.write total buf r).left w := by
  have hpos : 0 < (r.left buf).length := List.length_pos_iff.2 hin.left_ne_nil
  cases a with
  | fail e =>
    by_cases he : e = .eintr
    · subst he
      simp only [World.write, hin.resume_eintr, wroteBlock]
      exact .inr (Nat.le_refl _)
    · simp only [World.write, r.resume_error he, wroteBlock]
      exact .inl trivial
  | done k =>
    refine .inr ?_
    simp only [World.write, succeeds, Bool.toNat_true]
    rcases hin.resume_chunk k with ⟨hret, _⟩ | ⟨r', hagain, _, happ⟩
    · have hlen : ¬ (buf.length : Int) < 0 := by omega
      simp only [hret, wroteBlock, hlen, if_false, CopyPc.left]
      omega
    · have hlen := congrArg List.length happ
      have hc := chunk_left_pos hin k
      rw [List.length_append] at hlen
      simp only [hagain, wroteBlock, CopyPc.left]
      omega

theorem copyfile_left (hc : CopyPc.Counts got held pc) (hs : w.src.shut = true) (a : Answer) :
    (copyfile pc w a).1.Returned ∨ (copyfile pc w a).2.src.shut = true ∧
      (copyfile pc w a).1.left (copyfile pc w a).2 + (succeeds (.call a)).toNat ≤ pc.left w := by
  cases pc with
  | ret v => exact .inl trivial
  | write total buf r =>
    refine (wroteBlock_left hc.1 total w a).imp_right fun hle => ⟨?_, hle⟩
    cases a with
    | fail e => exact hs
    | done k => exact hs
  | read total =>
    cases a with
    | fail e =>
      by_cases he : e = .eintr
      · subst he
        exact .inr ⟨hs, Nat.le_refl _⟩
      · simp only [copyfile, World.read, rRead_error he, gotBlock]
        exact .inl trivial
    | done k =>
      obtain ⟨bs, t, hrecv⟩ := recv_of_shut hs k blksize
      obtain ⟨hfl, hsh, _⟩ := recv_inFlight hrecv
      simp only [copyfile, World.read, hrecv, Option.map_some, rRead, restart, gotBlock]
      by_cases hb : bs = []
      · subst hb
        exact .inl trivial
      · obtain ⟨r, hr, _, hleft⟩ := rWrite_spec hb
        have hlen : bs.length ≠ 0 := fun h => hb (List.length_eq_zero_iff.1 h)
        simp only [hlen, if_false, hr, wroteBlock, CopyPc.left, hleft, succeeds, Bool.toNat_true]
        refine .inr ⟨hsh.trans hs, ?_⟩
        omega

theorem CopyPc.Counts.left_le {pc : CopyPc} (h : pc.Counts got held) (w : World) :
    pc.left w ≤ 2 * w.src.inFlight.length + blksize + 1 := by
  cases pc with
  | read total =>
    simp only [CopyPc.left]
    omega
  | write total buf r =>
    obtain ⟨hin, -, hle, -⟩ := h
    have := left_length_le hin
    simp only [CopyPc.left]
    omega
  | ret v => exact Nat.zero_le _

/-- `copyfile` in every run, with calls that are interrupted, move only some of the bytes or fail,
and whatever arrives meanwhile: what it has written is a piece of what it has read, in order, and
only the end of the last block is missing, which its last `r_write` has not written. It returns the
length of the blocks before, in an `int`. If no call fails it returns at the end of the input, with
all of it copied and counted, and from when the input is closed it takes only so many successful
calls to return. -/
theorem copyfile_relays {w₀ : World} (h₀ : w₀.src.rd ≤ w₀.src.wr.length) (es : List Ev) :
    let s := run (Sys.step copyfile) ⟨w₀, .read 0⟩ es
    (∃ sent lost, s.world.dst = w₀.dst ++ sent ∧
      s.world.src.wr.take s.world.src.rd = w₀.src.wr.take w₀.src.rd ++ (sent ++ lost) ∧
      lost.length ≤ blksize ∧
      ∀ v, s.pc = .ret v → ∃ whole block, sent ++ lost = whole ++ block ∧ lost <:+ block ∧
        (lost = [] → block = []) ∧ block.length ≤ blksize ∧ v = toInt whole.length) ∧
    (saw fails (Sys.step copyfile) ⟨w₀, .read 0⟩ es = false → ∀ v, s.pc = .ret v →
      s.world.src.shut = true ∧ s.world.dst = w₀.dst ++ s.world.src.wr.drop w₀.src.rd ∧
      v = toInt (s.world.src.wr.length - w₀.src.rd)) ∧
    (s.world.src.shut = true → ∀ es',
      2 * s.world.src.inFlight.length + blksize + 1 < es'.countP succeeds →
      ∃ v, (run (Sys.step copyfile) ⟨w₀, .read 0⟩ (es ++ es')).pc = .ret v) := by
  intro s
  have hstart : CopyPc.Counts [] [] (.read 0) := by
    refine ⟨rfl, ?_⟩
    rw [List.length_nil, toInt_of_lt (by decide)]
    rfl
  have hcopies : Copies w₀ s :=
    run_invariant (Copies w₀) (fun _ e hs => hs.step e) ⟨[], [], .refl h₀, hstart⟩ es
  refine ⟨?_, ?_, ?_⟩
  · obtain ⟨got, held, hrel, hc⟩ := hcopies
    obtain ⟨hsuffix, hle⟩ := hc.held_suffix
    obtain ⟨sent, hsent, rfl⟩ := hrel.sent hsuffix
    refine ⟨sent, held, hsent, hrel.read, hle, ?_⟩
    intro v hv
    rw [hv] at hc
    exact hc
  · intro hf v hv
    obtain ⟨got, held, hrel, _, hw⟩ : CopiesAll w₀ s :=
      run_invariant_of (CopiesAll w₀) (fun _ e he hs => hs.step e he)
        ⟨[], [], .refl h₀, hstart, trivial⟩ hf
    rw [hv] at hw
    obtain ⟨rfl, rfl, hshut, hrd⟩ := hw
    have hgot := hrel.got_eq h₀ hrd
    have hdst := hrel.written
    rw [List.append_nil] at hdst
    refine ⟨hshut, hgot ▸ hdst, ?_⟩
    rw [hgot, List.length_drop]
    have hle : w₀.src.rd ≤ s.world.src.wr.length := by
      have hlen := congrArg List.length hrel.read
      simp only [List.length_take, List.length_append] at hlen
      omega
    rw [Int.natCast_sub hle]
  · intro hshut es' hn
    have hleft : s.pc.left s.world < es'.countP succeeds := by
      obtain ⟨got, held, _, hc⟩ := hcopies
      exact (hc.left_le s.world).trans_lt hn
    have hret : (run (Sys.step copyfile) s es').pc.Returned := by
      refine returns_of_shut (Copies w₀) CopyPc.Returned (fun pc w => pc.left w)
        (fun _ e hs => hs.step e) ?_ ?_ ?_ hcopies hshut hleft
      · intro pc w a hr
        cases pc with
        | ret v => trivial
        | read total | write total buf r => exact hr.elim
      · intro pc w
        cases pc <;> rfl
      · rintro s a ⟨_, _, _, hc⟩ hs
        exact copyfile_left hc hs a
    rw [run_append]
    cases hpc : (run (Sys.step copyfile) s es').pc with
    | ret v => exact ⟨v, rfl⟩
    | read total | write total buf r =>
      rw [hpc] at hret
      exact hret.elim

def World.file : World := ⟨⟨[7, 8, 9], 1, true⟩, [1]⟩

def fileCalls : List Ev :=
  [.call (.fail .eintr), .call (.done 0), .call (.done 9), .call (.done 9), .call (.done 9),
    .call (.done 9), .call (.done 9)]

theorem copyfile_relays_file :
    (run (Sys.step copyfile) ⟨.file, .read 0⟩ fileCalls).pc = .ret 2 ∧
      (run (Sys.step copyfile) ⟨.file, .read 0⟩ fileCalls).world.dst = World.file.dst ++
        (run (Sys.step copyfile) ⟨.file, .read 0⟩ fileCalls).world.src.wr.drop
          World.file.src.rd := by
  have h₀ : World.file.src.rd ≤ World.file.src.wr.length := by decide
  have hf : saw fails (Sys.step copyfile) ⟨.file, .read 0⟩ fileCalls = false := by decide +kernel
  have hpc : (run (Sys.step copyfile) ⟨.file, .read 0⟩ fileCalls).pc = .ret 2 := by decide +kernel
  exact ⟨hpc, ((copyfile_relays h₀ fileCalls).2.1 hf 2 hpc).2.1⟩

end SysPrg.RestartCopy
