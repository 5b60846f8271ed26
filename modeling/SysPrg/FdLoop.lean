import SysPrg.Kernel
import SysPrg.Run

namespace SysPrg.Cpudtl
set_option autoImplicit true

/-- The loop of `fd_read` or `fd_write`: about to make its call, with the total so far, or done. -/
inductive Loop where
  | again (total : Nat)
  | ret (v : Int)
  deriving DecidableEq, Repr

def wrote (n tw : Nat) : Except Errno Nat → Loop
  | .error _ => .ret (-1)
  | .ok wr => if tw + wr < n then .again (tw + wr) else .ret ↑(tw + wr)

def gotSome (n tr : Nat) : Except Errno Nat → Loop
  | .error _ => .ret (-1)
  | .ok 0 => .ret tr
  | .ok rd => if tr + rd < n then .again (tr + rd) else .ret ↑(tr + rd)

structure FdWrite where
  loop : Loop
  fd : Stream
  deriving DecidableEq, Repr

/-- `fd_write(fd, sbuf, n)`: every `write` is asked for the same `n` bytes at `sbuf`. -/
def fdWrite (sbuf : Bytes) (n : Nat) (s : FdWrite) (a : Answer) : FdWrite :=
  match s.loop, a with
  | .again tw, .done k =>
    let bs := chunk k n sbuf
    ⟨wrote n tw (.ok bs.length), s.fd.send bs⟩
  | .again tw, .fail e => ⟨wrote n tw (.error e), s.fd⟩
  | .ret _, _ => s

def FdWrite.start : FdWrite := ⟨.again 0, .fresh⟩

structure FdRead where
  loop : Loop
  rest : Bytes
  dbuf : Bytes
  deriving DecidableEq, Repr

/-- `fd_read(fd, dbuf, n)`: every `read` stores up to `n` bytes at `dbuf`. -/
def fdRead (n : Nat) (s : FdRead) (a : Answer) : FdRead :=
  match s.loop, a with
  | .again tr, .done k =>
    let bs := chunk k n s.rest
    ⟨gotSome n tr (.ok bs.length), s.rest.drop bs.length, bs ++ s.dbuf.drop bs.length⟩
  | .again tr, .fail e => { s with loop := gotSome n tr (.error e) }
  | .ret _, _ => s

def FdRead.start (stream dbuf : Bytes) : FdRead := ⟨.again 0, stream, dbuf⟩

def strlen (s : Bytes) : Nat := (cStr s).length

inductive ChildPc where
  | write (loop : Loop)
  | close
  | returned (rv : Int)
  | exited (err : String) (status : Int)
  deriving DecidableEq, Repr

structure Child where
  pc : ChildPc
  sd : Stream
  deriving DecidableEq, Repr

def wroteReply : Loop → ChildPc
  | .again tw => .write (.again tw)
  | .ret v => if v = -1 then .exited "socket write error" 6 else .close

/-- The end of `process_client`. The result of `close` is not looked at, and a process that exits
has its socket closed. -/
def Child.step (reply : Bytes) (c : Child) (a : Answer) : Child :=
  match c.pc with
  | .write loop =>
    let w := fdWrite reply (strlen reply) ⟨loop, c.sd⟩ a
    match wroteReply w.loop with
    | .exited err status => ⟨.exited err status, w.fd.close⟩
    | pc => ⟨pc, w.fd⟩
  | .close => ⟨.returned 0, c.sd.close⟩
  | _ => c

def Child.start : Child := ⟨.write (.again 0), .fresh⟩

theorem fdWrite_ret {w : FdWrite} (h : w.loop = .ret v) (a : Answer) : fdWrite sbuf n w a = w := by
  simp only [fdWrite, h]

theorem fdRead_ret {r : FdRead} (h : r.loop = .ret v) (a : Answer) : fdRead n r a = r := by
  simp only [fdRead, h]

theorem fdWrite_extends (h : bs <+: w.fd.wr) (a : Answer) : bs <+: (fdWrite sbuf n w a).fd.wr := by
  obtain ⟨loop, fd⟩ := w
  cases loop with
  | ret v => exact h
  | again tw =>
    cases a with
    | fail e => exact h
    | done k => exact h.trans (List.prefix_append _ _)

theorem fdWrite_whole (h : sbuf.length ≤ k + 1) :
    fdWrite sbuf sbuf.length .start (.done k) = ⟨.ret sbuf.length, ⟨sbuf, 0, false⟩⟩ := by
  simp only [fdWrite, FdWrite.start, (chunk_eq_self k sbuf).2 h, wrote, Nat.zero_add,
    if_neg (Nat.lt_irrefl _)]
  rfl

/-- After a first `write` that falls short, the second one starts at the first byte again. -/
theorem fdWrite_again (hb : sbuf = b :: tl) (h : k + 1 < sbuf.length) (k' : Nat) (ks : List Nat) :
    sbuf.take (k + 1) ++ [b] <+:
      (run (fdWrite sbuf sbuf.length) .start ((k :: k' :: ks).map .done)).fd.wr := by
  have hfirst : fdWrite sbuf sbuf.length .start (.done k) =
      ⟨.again (k + 1), ⟨sbuf.take (k + 1), 0, false⟩⟩ := by
    have hlen : (chunk k sbuf.length sbuf).length = k + 1 := by
      rw [chunk_length]
      omega
    simp only [fdWrite, FdWrite.start, wrote, hlen, Nat.zero_add, if_pos h]
    rw [chunk_eq_take, hlen]
    rfl
  have hsecond : [b] <+: chunk k' sbuf.length sbuf := by
    refine ⟨tl.take (min k' (sbuf.length - 1)), ?_⟩
    have hmin : min (k' + 1) sbuf.length = min k' (sbuf.length - 1) + 1 := by omega
    rw [chunk, hmin, hb, List.take_succ_cons]
    rfl
  rw [List.map_cons, List.map_cons, run_cons, hfirst, run_cons]
  apply run_invariant (fun w : FdWrite => sbuf.take (k + 1) ++ [b] <+: w.fd.wr)
  · intro w a hw
    exact fdWrite_extends hw a
  · exact (List.prefix_append_right_inj _).2 hsecond

/-- Bytes of which the first one does not come again, and none is a NUL. -/
def probe (n : Nat) : Bytes := 1 :: List.replicate (n - 1) 2

theorem probe_length (hn : 0 < n) : (probe n).length = n := by
  simp only [probe, List.length_cons, List.length_replicate]
  omega

theorem zero_not_mem_probe (n : Nat) : (0 : UInt8) ∉ probe n := by
  simp [probe]

theorem fdWrite_probe (h : k + 1 < n) (ks : List Nat) :
    (run (fdWrite (probe n) n) .start ((k :: k' :: ks).map .done)).fd.wr ≠ probe n := by
  have hlen : (probe n).length = n := probe_length (by omega)
  intro he
  have hpre : (probe n).take (k + 1) ++ [1] <+: probe n := by
    have hagain := fdWrite_again (rfl : probe n = _) (hlen.symm ▸ h) k' ks
    rwa [hlen, he] at hagain
  have hget := hpre.getElem (i := k + 1) (by simp [hlen]; omega)
  rw [List.getElem_append_right (by simp)] at hget
  simp [probe] at hget

/-- Whether `fd_write` delivers a buffer, when its calls transfer as `ks` says. -/
def Delivers (sbuf : Bytes) (ks : List Nat) : Prop :=
  (run (fdWrite sbuf sbuf.length) .start (ks.map .done)).loop = .ret sbuf.length ∧
    (run (fdWrite sbuf sbuf.length) .start (ks.map .done)).fd.wr = sbuf

theorem delivers_iff (n k k' : Nat) (ks : List Nat) :
    (∀ sbuf, sbuf.length = n → Delivers sbuf (k :: k' :: ks)) ↔ n ≤ k + 1 := by
  constructor
  · intro h
    by_contra hk
    have hlen : (probe n).length = n := probe_length (by omega)
    obtain ⟨-, hwr⟩ := h (probe n) hlen
    rw [hlen] at hwr
    exact fdWrite_probe (by omega) ks hwr
  · rintro h sbuf rfl
    unfold Delivers
    rw [List.map_cons, run_cons, fdWrite_whole h, run_fixed (fdWrite_ret rfl)]
    exact ⟨rfl, rfl⟩

/-- Whether `fd_read` fetches the start of a stream into a buffer, and less than `n` bytes of it
only at its end. -/
def Fetches (n : Nat) (stream dbuf : Bytes) (ks : List Nat) : Prop :=
  ∃ tr : Nat, (run (fdRead n) (.start stream dbuf) (ks.map .done)).loop = .ret tr ∧ tr ≤ n ∧
    (run (fdRead n) (.start stream dbuf) (ks.map .done)).dbuf.take tr = stream.take tr ∧
    (tr < n → tr = stream.length)

theorem fdRead_first (n k : Nat) (stream dbuf : Bytes)
    (hm : min (k + 1) (min n stream.length) = m) :
    fdRead n (.start stream dbuf) (.done k) =
      ⟨gotSome n 0 (.ok m), stream.drop m, stream.take m ++ dbuf.drop m⟩ := by
  have hlen : (chunk k n stream).length = m := by
    rw [chunk_length, ← hm]
    omega
  simp only [fdRead, FdRead.start, hlen]
  rw [chunk_eq_take, hlen]

/-- A first `read` that delivers all there is, or all that was asked for, is the only one, or the
next one finds the end of the stream. -/
theorem fetches_whole (h : min n stream.length ≤ k + 1) :
    Fetches n stream dbuf (k :: k' :: ks) := by
  obtain ⟨m, hm⟩ : ∃ m, min n stream.length = m := ⟨_, rfl⟩
  have hfirst := fdRead_first n k stream dbuf (m := m) (by omega)
  have hbuf : (stream.take m ++ dbuf.drop m).take m = stream.take m := by
    apply List.take_left'
    rw [List.length_take]
    omega
  refine ⟨m, ?_⟩
  rw [List.map_cons, List.map_cons, run_cons, hfirst]
  cases m with
  | zero =>
    rw [gotSome, run_fixed (fdRead_ret rfl)]
    refine ⟨rfl, Nat.zero_le _, hbuf, ?_⟩
    omega
  | succ m =>
    simp only [gotSome, Nat.zero_add]
    by_cases hlt : m + 1 < n
    · -- all of the stream has been read, and the second call sees its end
      have hrest : stream.drop (m + 1) = [] := List.drop_eq_nil_of_le (by omega)
      have hsecond : fdRead n ⟨.again (m + 1), [], stream.take (m + 1) ++ dbuf.drop (m + 1)⟩
          (.done k') = ⟨.ret ↑(m + 1), [], stream.take (m + 1) ++ dbuf.drop (m + 1)⟩ := by
        simp only [fdRead, chunk, List.take_nil, List.length_nil, gotSome, List.drop_zero,
          List.nil_append]
      rw [if_pos hlt, hrest, run_cons, hsecond, run_fixed (fdRead_ret rfl)]
      refine ⟨rfl, Nat.le_of_lt hlt, hbuf, ?_⟩
      omega
    · rw [if_neg hlt, run_fixed (fdRead_ret rfl)]
      refine ⟨rfl, ?_, hbuf, ?_⟩
      · omega
      · omega

/-- Only the byte 2 is still to come, and the buffer begins with it. -/
def Twos (r : FdRead) : Prop := (∀ b ∈ r.rest, b = 2) ∧ r.dbuf.head? = some 2

theorem fdRead_twos_again (hr : ∀ b ∈ rest, b = 2) (hb : rest ≠ [] ∨ dbuf.head? = some 2)
    (hn : 0 < n) (k : Nat) : Twos (fdRead n ⟨.again tr, rest, dbuf⟩ (.done k)) := by
  constructor
  · intro b hmem
    exact hr b (List.mem_of_mem_drop hmem)
  · simp only [fdRead]
    cases hc : chunk k n rest with
    | nil =>
      rcases hb with hne | hhead
      · exact (hne ((chunk_eq_nil hn).1 hc)).elim
      · exact hhead
    | cons b bs =>
      have hmem : b ∈ chunk k n rest := hc ▸ List.mem_cons_self
      rw [hr b (List.mem_of_mem_take hmem)]
      rfl

theorem fdRead_twos (h : Twos r) (hn : 0 < n) (a : Answer) : Twos (fdRead n r a) := by
  obtain ⟨loop, rest, dbuf⟩ := r
  cases loop with
  | ret v => exact h
  | again tr =>
    cases a with
    | fail e => exact h
    | done k => exact fdRead_twos_again h.1 (.inr h.2) hn k

theorem fdRead_probe (h : k + 1 < min n len) (dbuf : Bytes) (k' : Nat) (ks : List Nat) :
    Twos (run (fdRead n) (.start (probe len) dbuf) ((k :: k' :: ks).map .done)) := by
  have hlen : (probe len).length = len := probe_length (by omega)
  have hfirst := fdRead_first n k (probe len) dbuf (m := k + 1) (by rw [hlen]; omega)
  have hlt : 0 + (k + 1) < n := by omega
  have hrest : ∀ b ∈ (probe len).drop (k + 1), b = 2 := by
    intro b hb
    exact List.eq_of_mem_replicate (List.mem_of_mem_drop hb)
  have hne : (probe len).drop (k + 1) ≠ [] := by
    rw [Ne, List.drop_eq_nil_iff, hlen]
    omega
  rw [List.map_cons, List.map_cons, run_cons, hfirst, gotSome, if_pos hlt, run_cons]
  · apply run_invariant Twos
    · intro r a hr
      exact fdRead_twos hr (by omega) a
    · exact fdRead_twos_again hrest (.inl hne) (by omega) k'
  · omega

theorem fetches_iff (n len k k' : Nat) (ks : List Nat) :
    (∀ stream dbuf, stream.length = len → dbuf.length = n →
      Fetches n stream dbuf (k :: k' :: ks)) ↔ min n len ≤ k + 1 := by
  constructor
  · intro h
    by_contra hk
    have hlen : (probe len).length = len := probe_length (by omega)
    obtain ⟨tr, -, -, hbuf, hend⟩ := h (probe len) (List.replicate n 0) hlen List.length_replicate
    have htwo := (fdRead_probe (Nat.lt_of_not_le hk) (List.replicate n 0) k' ks).2
    obtain ⟨tr, rfl⟩ : ∃ t, tr = t + 1 := Nat.exists_eq_succ_of_ne_zero (by omega)
    have hhead := congrArg List.head? hbuf
    rw [List.head?_take, htwo] at hhead
    cases hhead
  · rintro h stream dbuf rfl -
    exact fetches_whole h

/-- `process_client` has written what its `fd_write` has, and is past it when that has returned. -/
def Child.Follows (w : FdWrite) (c : Child) : Prop :=
  (c.pc = .write w.loop ∧ c.sd = w.fd ∧ ∃ tw, w.loop = .again tw) ∨
    (c.sd.wr = w.fd.wr ∧ (∃ v, w.loop = .ret v) ∧ ∀ loop, c.pc ≠ .write loop)

theorem Child.Follows.past {c : Child} (hwr : c.sd.wr = w.fd.wr) (hl : w.loop = .ret v)
    (hp : ∀ loop, c.pc ≠ .write loop) (a : Answer) :
    Child.Follows (fdWrite reply n w a) (c.step reply a) := by
  rw [fdWrite_ret hl]
  right
  obtain ⟨pc, sd⟩ := c
  cases pc with
  | write loop => exact (hp loop rfl).elim
  | close => exact ⟨hwr, ⟨v, hl⟩, fun _ he => by cases he⟩
  | returned | exited => exact ⟨hwr, ⟨v, hl⟩, hp⟩

theorem Child.Follows.step (h : Child.Follows w c) (a : Answer) :
    Child.Follows (fdWrite reply (strlen reply) w a) (c.step reply a) := by
  rcases h with ⟨hp, hsd, -⟩ | ⟨hwr, ⟨v, hl⟩, hp⟩
  · obtain ⟨loop, fd⟩ := w
    obtain ⟨pc, sd⟩ := c
    cases hp
    cases hsd
    simp only [Child.step]
    generalize fdWrite reply (strlen reply) ⟨loop, fd⟩ a = w'
    obtain ⟨loop', fd'⟩ := w'
    cases loop' with
    | again tw => exact .inl ⟨rfl, rfl, tw, rfl⟩
    | ret v =>
      right
      simp only [wroteReply]
      split
      · next hx => exact ⟨rfl, ⟨v, rfl⟩, fun _ he => by cases he⟩
      · next hx =>
        refine ⟨rfl, ⟨v, rfl⟩, ?_⟩
        intro loop he
        split at he
        · cases he
        · cases he
  · exact .past hwr hl hp a

theorem Child.run_wr (reply : Bytes) (as : List Answer) :
    (run (Child.step reply) .start as).sd.wr =
      (run (fdWrite reply (strlen reply)) .start as).fd.wr := by
  have h := run_related Child.Follows (fun _ _ a h => h.step a)
    (.inl ⟨rfl, rfl, 0, rfl⟩ : Child.Follows .start .start) as (g := Child.step reply)
  rcases h with ⟨-, hsd, -⟩ | ⟨hwr, -⟩
  · rw [hsd]
  · exact hwr

theorem strlen_eq_length (h : (0 : UInt8) ∉ reply) : strlen reply = reply.length := by
  rw [strlen, cStr_eq_self h]

theorem chunk_cStr (h : strlen reply ≤ k + 1) : chunk k (strlen reply) reply = cStr reply := by
  rw [chunk, Nat.min_eq_right h]
  exact (List.prefix_iff_eq_take.mp (List.takeWhile_prefix _)).symm

theorem Child.run_whole (h : strlen reply ≤ k + 1) (a : Answer) (as : List Answer) :
    run (Child.step reply) .start (.done k :: a :: as) = ⟨.returned 0, ⟨cStr reply, 0, true⟩⟩ := by
  have hfirst : Child.step reply .start (.done k) = ⟨.close, ⟨cStr reply, 0, false⟩⟩ := by
    have hlen : (cStr reply).length = strlen reply := rfl
    simp only [Child.step, Child.start, fdWrite, chunk_cStr h, hlen, wrote, Nat.zero_add,
      if_neg (Nat.lt_irrefl _), wroteReply]
    rw [if_neg (by omega)]
    rfl
  have hend : ∀ a, Child.step reply ⟨.returned 0, ⟨cStr reply, 0, true⟩⟩ a =
      ⟨.returned 0, ⟨cStr reply, 0, true⟩⟩ := fun _ => rfl
  rw [run_cons, hfirst, run_cons]
  exact run_fixed hend as

/-- Whether the client of `process_client` receives the reply, when the calls transfer as `ks`
says. -/
def Replies (reply : Bytes) (ks : List Nat) : Prop :=
  (run (Child.step reply) .start (ks.map .done)).pc = .returned 0 ∧
    (run (Child.step reply) .start (ks.map .done)).sd.wr = reply

theorem replies_iff (n k k' : Nat) (ks : List Nat) :
    (∀ reply, (0 : UInt8) ∉ reply → reply.length = n → Replies reply (k :: k' :: ks)) ↔
      n ≤ k + 1 := by
  constructor
  · intro h
    by_contra hk
    have hlen : (probe n).length = n := probe_length (by omega)
    have hnul := zero_not_mem_probe n
    obtain ⟨-, hwr⟩ := h (probe n) hnul hlen
    rw [Child.run_wr, strlen_eq_length hnul, hlen] at hwr
    exact fdWrite_probe (Nat.lt_of_not_le hk) ks hwr
  · rintro h reply hnul rfl
    have hrun := Child.run_whole ((strlen_eq_length hnul).trans_le h) (.done k') (ks.map .done)
    rw [cStr_eq_self hnul] at hrun
    unfold Replies
    rw [List.map_cons, List.map_cons, hrun]
    exact ⟨rfl, rfl⟩

/-- `fd_write` delivers every buffer of `n` bytes, `process_client` every reply of that length, and
`fd_read` fetches what it should, exactly when the first call transfers all that there is to
transfer. -/
theorem fd_loops_exact_iff (n k k' : Nat) (ks : List Nat) :
    ((∀ sbuf, sbuf.length = n → Delivers sbuf (k :: k' :: ks)) ↔ n ≤ k + 1) ∧
    ((∀ reply, (0 : UInt8) ∉ reply → reply.length = n → Replies reply (k :: k' :: ks)) ↔
      n ≤ k + 1) ∧
    ∀ len, (∀ stream dbuf, stream.length = len → dbuf.length = n →
      Fetches n stream dbuf (k :: k' :: ks)) ↔ min n len ≤ k + 1 :=
  ⟨delivers_iff n k k' ks, replies_iff n k k' ks, fun len => fetches_iff n len k k' ks⟩

/-- Two bytes written one at a time arrive as the first one twice, and two bytes read one at a time
are stored one over the other. -/
theorem fd_loops_lose_bytes :
    run (fdWrite [1, 2] 2) .start [.done 0, .done 0] = ⟨.ret 2, ⟨[1, 1], 0, false⟩⟩ ∧
    run (fdRead 2) (.start [1, 2] [0, 0]) [.done 0, .done 0] = ⟨.ret 2, [], [2, 0]⟩ ∧
    run (Child.step [65, 66, 0]) .start [.done 0, .done 0, .done 0] =
      ⟨.returned 0, ⟨[65, 65], 0, true⟩⟩ := by
  decide +kernel

end SysPrg.Cpudtl
