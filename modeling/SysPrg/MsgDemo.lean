import SysPrg.Kernel
import SysPrg.Run
import SysPrg.Threads
import SysPrg.MsgQueue
import Mathlib.Algebra.Group.Action.Defs
import Mathlib.Algebra.Order.BigOperators.Group.Finset

namespace SysPrg.MsgDemo
set_option autoImplicit true

def msgszMax : Nat := 180

def messageTwo : Msg := ⟨2, "Message of type 2".toList⟩

def messageFive : Msg := ⟨5, "Message of type 5!".toList⟩

inductive Writer where
  | create
  | get
  | sendTwo
  | sendFive
  | exited (err : Option String) (status : Int)
  deriving DecidableEq, Repr

inductive ReaderPc where
  | get
  | readFirst
  | readFive
  | readTwo
  | exited (err : Option String) (status : Int)
  deriving DecidableEq, Repr

structure Line where
  n : Nat
  mtype : Nat
  mtext : List Char
  deriving DecidableEq, Repr

/-- What is printed of a message of which at most `msgsz` bytes were asked for. -/
def lineOf (msgsz : Nat) (m : Msg) : Line :=
  ⟨(m.mtext.take msgsz).length, m.mtype, m.mtext.take msgsz⟩

structure Reader where
  pc : ReaderPc
  lines : List Line
  deriving DecidableEq, Repr

/-- The queue under `KEY_VAL`, if there is one, with its capacity, and the processes of the two
programs. -/
structure Sys (ω ρ : Type) where
  queue : Option (List Msg)
  qbytes : Nat
  writer : ω → Writer
  reader : ρ → Reader

inductive Ev (ω ρ : Type) where
  | writer (w : ω) (a : Answer)
  | reader (r : ρ) (a : Answer)
  deriving DecidableEq, Repr

section
variable {ω ρ : Type} [DecidableEq ω] [DecidableEq ρ]

def Sys.writerTo (s : Sys ω ρ) (w : ω) (p : Writer) : Sys ω ρ :=
  { s with writer := Function.update s.writer w p }

def Sys.readerTo (s : Sys ω ρ) (r : ρ) (pc : ReaderPc) : Sys ω ρ :=
  { s with reader := Function.update s.reader r { s.reader r with pc } }

def Sys.msgsnd (s : Sys ω ρ) (w : ω) (m : Msg) (next : Writer) :
    Answer → Sys ω ρ × Option (QueueEv Msg)
  | .fail _ => (s.writerTo w (.exited (some "msgsnd") 1), none)
  | .done _ =>
    match s.queue with
    | none => (s.writerTo w (.exited (some "msgsnd") 1), none)
    | some q =>
      if msgFits s.qbytes q m then
        ({ s with queue := some (q ++ [m]) }.writerTo w next, some (.sent m))
      else (s, none)

/-- One turn of the loop of `msgrcv_r`, which an interrupted call does not leave, and what follows
it in `main`. -/
def Sys.msgrcvR (s : Sys ω ρ) (r : ρ) (msgsz msgtyp : Nat) (noError : Bool) (next : ReaderPc) :
    Answer → Sys ω ρ × Option (QueueEv Msg)
  | .fail .eintr => (s, none)
  | .fail _ => (s.readerTo r (.exited (some "msgrcv") 1), none)
  | .done _ =>
    match s.queue with
    | none => (s.readerTo r (.exited (some "msgrcv") 1), none)
    | some q =>
      match msgrcv q msgsz msgtyp noError with
      | .block => (s, none)
      | .e2big => (s.readerTo r (.exited (some "msgrcv") 1), none)
      | .done m rest =>
        ({ s with
            queue := some rest
            reader := Function.update s.reader r ⟨next, (s.reader r).lines ++ [lineOf msgsz m]⟩ },
          some (.received m))

def Sys.write (s : Sys ω ρ) (w : ω) (a : Answer) : Sys ω ρ × Option (QueueEv Msg) :=
  match s.writer w with
  | .create =>
    match a, s.queue with
    | .fail .eexist, _ => (s.writerTo w .get, none)
    | .fail _, _ => (s.writerTo w (.exited (some "msgget failure") 1), none)
    | .done _, some _ => (s.writerTo w .get, none)
    | .done _, none => ({ s with queue := some [] }.writerTo w .sendTwo, none)
  | .get =>
    match a, s.queue with
    | .done _, some _ => (s.writerTo w .sendTwo, none)
    | _, _ => (s.writerTo w (.exited (some "msgget failure") 1), none)
  | .sendTwo => s.msgsnd w messageTwo .sendFive a
  | .sendFive => s.msgsnd w messageFive (.exited none 0) a
  | .exited _ _ => (s, none)

def Sys.read (s : Sys ω ρ) (r : ρ) (a : Answer) : Sys ω ρ × Option (QueueEv Msg) :=
  match (s.reader r).pc with
  | .get =>
    match a, s.queue with
    | .done _, some _ => (s.readerTo r .readFirst, none)
    | _, _ => (s.readerTo r (.exited (some "msgget") 1), none)
  | .readFirst => s.msgrcvR r msgszMax 0 false .readFive a
  | .readFive => s.msgrcvR r msgszMax 5 false .readTwo a
  | .readTwo => s.msgrcvR r 10 2 true (.exited none 0) a
  | .exited _ _ => (s, none)

def Sys.call (s : Sys ω ρ) : Ev ω ρ → Sys ω ρ × Option (QueueEv Msg)
  | .writer w a => s.write w a
  | .reader r a => s.read r a

def Sys.step (s : Sys ω ρ) (e : Ev ω ρ) : Sys ω ρ := (s.call e).1

def Ev.party : Ev ω ρ → ω ⊕ ρ
  | .writer w _ => .inl w
  | .reader r _ => .inr r

def Sys.event (s : Sys ω ρ) (e : Ev ω ρ) : Option ((ω ⊕ ρ) × QueueEv Msg) :=
  (s.call e).2.map fun ev => (e.party, ev)

def Sys.messages (s : Sys ω ρ) : List Msg := s.queue.getD []

structure Sys.Start (s : Sys ω ρ) : Prop where
  writer : ∀ w, s.writer w = .create
  reader : ∀ r, s.reader r = ⟨.get, []⟩

end

inductive Sends : Writer → Msg → Writer → Prop where
  | two : Sends .sendTwo messageTwo .sendFive
  | five : Sends .sendFive messageFive (.exited none 0)

inductive Opens : Writer → Writer → Prop where
  | found : Opens .create .get
  | created : Opens .create .sendTwo
  | got : Opens .get .sendTwo
  | fails : Opens p (.exited (some err) 1)

/-- The receives of a reader: how many bytes and which type it asks for. -/
inductive Asks : ReaderPc → Nat → Nat → ReaderPc → Prop where
  | first : Asks .readFirst msgszMax 0 .readFive
  | five : Asks .readFive msgszMax 5 .readTwo
  | two : Asks .readTwo 10 2 (.exited none 0)

def Writer.toSend : Writer → Nat
  | .create | .get | .sendTwo => 2
  | .sendFive => 1
  | .exited _ _ => 0

def ReaderPc.got : ReaderPc → Nat
  | .get | .readFirst => 0
  | .readFive => 1
  | .readTwo => 2
  | .exited none _ => 3
  | .exited (some _) _ => 0

theorem messages_of_queue {s : Sys ω ρ} (h : s.queue = some q) : s.messages = q := by
  rw [Sys.messages, h]
  rfl

section
variable {ω ρ : Type} [DecidableEq ω] [DecidableEq ρ] {s : Sys ω ρ}

/-- What a call can do. -/
inductive Does (s : Sys ω ρ) : Ev ω ρ → Sys ω ρ → Option (QueueEv Msg) → Prop where
  | idle : Does s e s none
  | writerTo {q : Option (List Msg)} {w : ω} {p : Writer} {a : Answer}
      (hq : q.getD [] = s.messages) (hp : Opens (s.writer w) p) :
    Does s (.writer w a) ({ s with queue := q }.writerTo w p) none
  | sent {w : ω} {m : Msg} {p : Writer} {a : Answer} (hm : Sends (s.writer w) m p) :
    Does s (.writer w a) ({ s with queue := some (s.messages ++ [m]) }.writerTo w p)
      (some (.sent m))
  | readerTo {r : ρ} {pc : ReaderPc} {a : Answer}
      (hp : pc = .readFirst ∧ (s.reader r).pc = .get ∨ ∃ err, pc = .exited (some err) 1) :
    Does s (.reader r a) (s.readerTo r pc) none
  | received {r : ρ} {m : Msg} {pc : ReaderPc} {a : Answer}
      (hr : Asks (s.reader r).pc msgsz msgtyp pc)
      (hm : s.messages.find? (wanted msgtyp) = some m) :
    Does s (.reader r a)
      { s with
        queue := some (s.messages.eraseP (wanted msgtyp))
        reader := Function.update s.reader r ⟨pc, (s.reader r).lines ++ [lineOf msgsz m]⟩ }
      (some (.received m))

theorem Does.opens (a : Answer) (h : Opens (s.writer w) p) :
    Does s (.writer w a) (s.writerTo w p) none :=
  .writerTo (q := s.queue) rfl h

theorem Does.fails (s : Sys ω ρ) (r : ρ) (a : Answer) (err : String) :
    Does s (.reader r a) (s.readerTo r (.exited (some err) 1)) none :=
  .readerTo (.inr ⟨err, rfl⟩)

theorem msgsnd_does (hm : Sends (s.writer w) m p) (a : Answer) :
    Does s (.writer w a) (s.msgsnd w m p a).1 (s.msgsnd w m p a).2 := by
  unfold Sys.msgsnd
  split
  case h_1 => exact .opens _ .fails
  case h_2 =>
    split
    case h_1 => exact .opens _ .fails
    case h_2 q hq =>
      split
      · rw [← messages_of_queue hq]
        exact .sent hm
      · exact .idle

theorem msgrcvR_does (hr : Asks (s.reader r).pc msgsz msgtyp pc) (noError : Bool) (a : Answer) :
    Does s (.reader r a) (s.msgrcvR r msgsz msgtyp noError pc a).1
      (s.msgrcvR r msgsz msgtyp noError pc a).2 := by
  unfold Sys.msgrcvR
  split
  case h_1 => exact .idle
  case h_2 => exact .fails s r _ _
  case h_3 =>
    split
    case h_1 => exact .fails s r _ _
    case h_2 q hq =>
      split
      case h_1 => exact .idle
      case h_2 => exact .fails s r _ _
      case h_3 m rest hrcv =>
        obtain ⟨hm, rfl⟩ := msgrcv_done hrcv
        rw [← messages_of_queue hq] at hm ⊢
        exact .received hr hm

theorem write_does (s : Sys ω ρ) (w : ω) (a : Answer) :
    Does s (.writer w a) (s.write w a).1 (s.write w a).2 := by
  unfold Sys.write
  split
  case h_1 hpc =>
    split
    case h_1 => exact .opens _ (hpc ▸ .found)
    case h_2 => exact .opens _ .fails
    case h_3 => exact .opens _ (hpc ▸ .found)
    case h_4 hq => exact .writerTo (by rw [Sys.messages, hq]; rfl) (hpc ▸ .created)
  case h_2 hpc =>
    split
    · exact .opens _ (hpc ▸ .got)
    · exact .opens _ .fails
  case h_3 hpc => exact msgsnd_does (hpc ▸ .two) a
  case h_4 hpc => exact msgsnd_does (hpc ▸ .five) a
  case h_5 => exact .idle

theorem read_does (s : Sys ω ρ) (r : ρ) (a : Answer) :
    Does s (.reader r a) (s.read r a).1 (s.read r a).2 := by
  unfold Sys.read
  split
  case h_1 hpc =>
    split
    · exact .readerTo (.inl ⟨rfl, hpc⟩)
    · exact .fails s r _ _
  case h_2 hpc => exact msgrcvR_does (hpc ▸ .first) false a
  case h_3 hpc => exact msgrcvR_does (hpc ▸ .five) false a
  case h_4 hpc => exact msgrcvR_does (hpc ▸ .two) true a
  case h_5 => exact .idle

theorem step_does (s : Sys ω ρ) (e : Ev ω ρ) : Does s e (s.step e) (s.call e).2 := by
  cases e with
  | writer w a => exact write_does s w a
  | reader r a => exact read_does s r a

theorem Does.queued (h : Does s e s' ev) : Queued Msg.mtype s.messages s'.messages ev := by
  cases h with
  | idle => exact .same
  | writerTo hq =>
    have hsame : ∀ {q : List Msg}, q = s.messages → Queued Msg.mtype s.messages q none := by
      rintro q rfl
      exact .same
    exact hsame hq
  | sent => exact .sent _
  | readerTo => exact .same
  | received _ hm => exact .received (fun _ _ => wanted_eq_of_mtype _) hm

end

def Writer.Sent (p : Writer) (ms : List Msg) : Prop :=
  match p with
  | .create | .get | .sendTwo => ms = []
  | .sendFive => ms = [messageTwo]
  | .exited none _ => ms = [messageTwo, messageFive]
  | .exited (some _) _ => ms <+: [messageTwo, messageFive]

theorem Writer.Sent.sublist {p : Writer} (h : p.Sent ms) : ms <+: [messageTwo, messageFive] := by
  unfold Writer.Sent at h
  split at h
  case h_5 => rw [h]
  case h_6 => exact h
  all_goals
    rw [h]
    exact ⟨_, rfl⟩

theorem Opens.sent (h : Opens p p') (hp : p.Sent ms) : p'.Sent ms := by
  cases h with
  | found | created | got => exact hp
  | fails => exact hp.sublist

theorem Sends.sent (h : Sends p m p') (hp : p.Sent ms) : p'.Sent (ms ++ [m]) := by
  cases h with
  | two => exact congrArg (· ++ [messageTwo]) (show ms = [] from hp)
  | five => exact congrArg (· ++ [messageFive]) (show ms = [messageTwo] from hp)

/-- The lines of a reader are of the messages it has received, as many bytes of each as it asked
for. -/
def Reader.Prints (r : Reader) (ms : List Msg) : Prop :=
  r.lines = List.zipWith lineOf [msgszMax, msgszMax, 10] ms ∧
    match r.pc with
    | .exited (some _) _ => ms.length ≤ 3
    | pc => ms.length = pc.got

theorem ReaderPc.got_le (pc : ReaderPc) : pc.got ≤ 3 := by
  unfold ReaderPc.got
  split <;> decide

theorem Reader.Prints.length_le {r : Reader} (h : r.Prints ms) : ms.length ≤ 3 := by
  obtain ⟨-, hlen⟩ := h
  split at hlen
  · exact hlen
  · exact hlen.trans_le (ReaderPc.got_le _)

theorem Asks.prints {r : Reader} (h : Asks r.pc msgsz msgtyp pc) (hr : r.Prints ms) (m : Msg) :
    Reader.Prints ⟨pc, r.lines ++ [lineOf msgsz m]⟩ (ms ++ [m]) := by
  obtain ⟨rpc, lines⟩ := r
  obtain ⟨rfl, hlen⟩ := hr
  -- the place says how many messages there were
  cases h with
  | first =>
    obtain rfl := List.length_eq_zero_iff.1 hlen
    exact ⟨rfl, rfl⟩
  | five =>
    obtain ⟨m₁, rfl⟩ := List.length_eq_one_iff.1 hlen
    exact ⟨rfl, rfl⟩
  | two =>
    obtain ⟨m₁, m₂, rfl⟩ := List.length_eq_two.1 hlen
    exact ⟨rfl, rfl⟩

section
variable {ω ρ : Type} [DecidableEq ω] [DecidableEq ρ] {s : Sys ω ρ}

structure Tied (s : Sys ω ρ) (hist : List ((ω ⊕ ρ) × QueueEv Msg)) : Prop where
  writer : ∀ w, (s.writer w).Sent (allSent (doneBy (.inl w) hist))
  reader : ∀ r, (s.reader r).Prints (allReceived (doneBy (.inr r) hist))

theorem Does.tied (hd : Does s e s' ev) (h : Tied s hist) :
    Tied s' (hist ++ (ev.map fun ev => (e.party, ev)).toList) := by
  cases hd with
  | idle => rwa [Option.map_none, Option.toList_none, List.append_nil]
  | @writerTo q w p a hq hp =>
    rw [Option.map_none, Option.toList_none, List.append_nil]
    exact ⟨(Function.forall_update_iff s.writer fun v (x : Writer) =>
      x.Sent (allSent (doneBy (Sum.inl v) hist))).2
        ⟨hp.sent (h.writer w), fun v _ => h.writer v⟩, h.reader⟩
  | @sent w m p a hm =>
    refine ⟨?_, fun r => ?_⟩
    · refine forall_doneBy Sum.inl_injective (fun _ x es => Writer.Sent x (allSent es)) h.writer ?_
      rw [allSent_sent]
      exact hm.sent (h.writer w)
    · rw [Option.map_some, Option.toList_some, Ev.party, doneBy_of_ne Sum.inl_ne_inr]
      exact h.reader r
  | @readerTo r pc a hp =>
    rw [Option.map_none, Option.toList_none, List.append_nil]
    refine ⟨h.writer, (Function.forall_update_iff s.reader fun u (x : Reader) =>
      x.Prints (allReceived (doneBy (Sum.inr u) hist))).2 ⟨?_, fun u _ => h.reader u⟩⟩
    rcases hp with ⟨rfl, hget⟩ | ⟨err, rfl⟩
    · have hr := h.reader r
      rw [Reader.Prints, hget] at hr
      exact hr
    · exact ⟨(h.reader r).1, (h.reader r).length_le⟩
  | @received msgsz msgtyp r m pc a hr hm =>
    refine ⟨fun w => ?_, ?_⟩
    · rw [Option.map_some, Option.toList_some, Ev.party, doneBy_of_ne Sum.inr_ne_inl]
      exact h.writer w
    · refine forall_doneBy Sum.inr_injective (fun _ x es => Reader.Prints x (allReceived es))
        h.reader ?_
      rw [allReceived_received]
      exact hr.prints (h.reader r) m

/-- One writer and one reader on no queue yet, as the demo is tried first. -/
def pair : Sys Unit Unit := ⟨none, 16384, fun _ => .create, fun _ => ⟨.get, []⟩⟩

def pairCalls : List (Ev Unit Unit) :=
  .replicate 3 (.writer () (.done 0)) ++ .replicate 5 (.reader () (.done 0))

end

theorem Sends.toSend (h : Sends p m p') : p.toSend = p'.toSend + 1 := by
  cases h <;> rfl

theorem Opens.toSend (h : Opens p p') : p'.toSend ≤ p.toSend := by
  cases h with
  | found | created | got => exact Nat.le_refl 2
  | fails => exact Nat.zero_le _

theorem Sends.ours (h : Sends p m p') : m = messageTwo ∨ m = messageFive := by
  cases h with
  | two => exact .inl rfl
  | five => exact .inr rfl

theorem Asks.got (h : Asks pc msgsz msgtyp pc') : pc'.got = pc.got + 1 := by
  cases h <;> rfl

section
variable {ω ρ : Type} [Fintype ω] [Fintype ρ]

/-- The messages that readers have, that are in the queue and that may still be sent. -/
def Sys.supply (s : Sys ω ρ) : Nat :=
  ∑ r, (s.reader r).pc.got + s.messages.length + ∑ w, (s.writer w).toSend

theorem Sys.Start.supply {s : Sys ω ρ} (h : s.Start) :
    s.supply = s.messages.length + 2 * Fintype.card ω := by
  simp only [Sys.supply, h.writer, h.reader, ReaderPc.got, Writer.toSend, Finset.sum_const,
    Finset.card_univ, smul_eq_mul]
  omega

variable [DecidableEq ω] [DecidableEq ρ] {s : Sys ω ρ}

theorem Does.supply (h : Does s e s' ev) : s'.supply ≤ s.supply := by
  cases h with
  | idle => exact le_refl _
  | @writerTo q w p a hq hp =>
    have hsum := sum_update Writer.toSend s.writer w p
    have hle := hp.toSend
    have hlen := congrArg List.length hq
    simp only [Sys.supply, Sys.messages, Sys.writerTo] at hlen ⊢
    omega
  | @sent w m p a hm =>
    have hsum := sum_update Writer.toSend s.writer w p
    have hone := hm.toSend
    have hlen : (s.messages ++ [m]).length = s.messages.length + 1 := List.length_append
    simp only [Sys.supply, Sys.messages, Sys.writerTo, Option.getD_some] at hlen ⊢
    omega
  | @readerTo r pc a hp =>
    have hsum := sum_update (fun x : Reader => x.pc.got) s.reader r { s.reader r with pc }
    have hle : pc.got ≤ (s.reader r).pc.got := by
      rcases hp with ⟨rfl, -⟩ | ⟨err, rfl⟩ <;> exact Nat.zero_le _
    simp only [Sys.supply, Sys.messages, Sys.readerTo] at hsum ⊢
    omega
  | @received msgsz msgtyp r m pc a hr hm =>
    have hsum := sum_update (fun x : Reader => x.pc.got) s.reader r
      ⟨pc, (s.reader r).lines ++ [lineOf msgsz m]⟩
    have hone := hr.got
    have hlen := List.length_eraseP_of_mem (List.mem_of_find?_eq_some hm) (List.find?_some hm)
    have hpos := List.length_pos_of_mem (List.mem_of_find?_eq_some hm)
    simp only [Sys.supply, Sys.messages, Option.getD_some] at hsum hlen hpos ⊢
    omega

/-- Of `n` writers on an empty queue no more than `2 n / 3` readers come to their end: a reader
wants three messages and a writer sends two. -/
theorem msg1_readers_bounded (h : s.Start) (es : List (Ev ω ρ)) :
    3 * (Finset.univ.filter fun r => ((run Sys.step s es).reader r).pc = .exited none 0).card +
      (run Sys.step s es).messages.length ≤ s.messages.length + 2 * Fintype.card ω := by
  have hsupply : (run Sys.step s es).supply ≤ s.supply :=
    run_invariant (fun t => t.supply ≤ s.supply) (fun t e ht => (step_does t e).supply.trans ht)
      (le_refl _) es
  have hthree := Finset.card_nsmul_le_sum
    (Finset.univ.filter fun r => ((run Sys.step s es).reader r).pc = .exited none 0)
    (fun r => ((run Sys.step s es).reader r).pc.got) 3 (fun r hr => by
      rw [(Finset.mem_filter.1 hr).2, ReaderPc.got])
  have hall := Finset.sum_le_sum_of_subset
    (f := fun r => ((run Sys.step s es).reader r).pc.got) (Finset.filter_subset
      (fun r => ((run Sys.step s es).reader r).pc = .exited none 0) Finset.univ)
  rw [h.supply, Sys.supply] at hsupply
  rw [smul_eq_mul] at hthree
  omega

theorem msg1_readers_bounded_pair : pair.Start ∧
    3 * (Finset.univ.filter fun r =>
        ((run Sys.step pair pairCalls).reader r).pc = .exited none 0).card +
      (run Sys.step pair pairCalls).messages.length ≤
        pair.messages.length + 2 * Fintype.card Unit := by
  have hstart : pair.Start := ⟨fun _ => rfl, fun _ => rfl⟩
  exact ⟨hstart, msg1_readers_bounded hstart pairCalls⟩

end

def lineFive : Line := ⟨18, 5, "Message of type 5!".toList⟩

def lineTwo : Line := ⟨10, 2, "Message of".toList⟩

def Ours (q : List Msg) : Prop := ∀ m ∈ q, m = messageTwo ∨ m = messageFive

/-- What a reader has printed by the place it is at, if its first message is `m`. -/
def Reader.Tells (m : Msg) (r : Reader) : Prop :=
  match r.pc with
  | .get | .readFirst => r.lines = []
  | .readFive => r.lines = [lineOf msgszMax m]
  | .readTwo => r.lines = [lineOf msgszMax m, lineFive]
  | .exited none _ => r.lines = [lineOf msgszMax m, lineFive, lineTwo]
  | .exited (some _) _ => r.lines <+: [lineOf msgszMax m, lineFive, lineTwo]

theorem Reader.Tells.sublines {r : Reader} (h : r.Tells m) :
    r.lines <+: [lineOf msgszMax m, lineFive, lineTwo] := by
  unfold Reader.Tells at h
  split at h
  case h_5 => rw [h]
  case h_6 => exact h
  all_goals
    rw [h]
    exact ⟨_, rfl⟩

theorem Ours.eq_five (h : m = messageTwo ∨ m = messageFive) (hm : wanted 5 m = true) :
    m = messageFive := by
  rcases h with rfl | rfl
  · exact absurd hm (by decide)
  · rfl

theorem Ours.eq_two (h : m = messageTwo ∨ m = messageFive) (hm : wanted 2 m = true) :
    m = messageTwo := by
  rcases h with rfl | rfl
  · rfl
  · exact absurd hm (by decide)

theorem lineOf_messageFive : lineOf msgszMax messageFive = lineFive := by decide +kernel

theorem lineOf_messageTwo : lineOf 10 messageTwo = lineTwo := by decide +kernel

theorem Asks.tells {r : Reader} (h : Asks r.pc msgsz msgtyp pc)
    (hm : m = messageTwo ∨ m = messageFive) (hw : wanted msgtyp m = true)
    (ht : ∃ m₁, (m₁ = messageTwo ∨ m₁ = messageFive) ∧ r.Tells m₁) :
    ∃ m₁, (m₁ = messageTwo ∨ m₁ = messageFive) ∧
      Reader.Tells m₁ ⟨pc, r.lines ++ [lineOf msgsz m]⟩ := by
  obtain ⟨m₁, hm₁, ht⟩ := ht
  obtain ⟨rpc, lines⟩ := r
  cases h with
  | first =>
    have hnil : lines = [] := ht
    exact ⟨m, hm, congrArg (· ++ [lineOf msgszMax m]) hnil⟩
  | five =>
    have hone : lines = [lineOf msgszMax m₁] := ht
    obtain rfl := Ours.eq_five hm hw
    refine ⟨m₁, hm₁, ?_⟩
    rw [lineOf_messageFive, hone]
    rfl
  | two =>
    have htwo : lines = [lineOf msgszMax m₁, lineFive] := ht
    obtain rfl := Ours.eq_two hm hw
    refine ⟨m₁, hm₁, ?_⟩
    rw [lineOf_messageTwo, htwo]
    rfl

section
variable {ω ρ : Type} [DecidableEq ω] [DecidableEq ρ] {s : Sys ω ρ}

structure Told (s : Sys ω ρ) : Prop where
  ours : Ours s.messages
  tells : ∀ r, ∃ m, (m = messageTwo ∨ m = messageFive) ∧ (s.reader r).Tells m

omit [DecidableEq ω] in
theorem Told.reader (h : Told s)
    (hx : ∃ m, (m = messageTwo ∨ m = messageFive) ∧ x.Tells m) (r : ρ) :
    ∀ u, ∃ m, (m = messageTwo ∨ m = messageFive) ∧ (Function.update s.reader r x u).Tells m :=
  (Function.forall_update_iff s.reader fun _ y =>
    ∃ m, (m = messageTwo ∨ m = messageFive) ∧ y.Tells m).2 ⟨hx, fun u _ => h.tells u⟩

theorem Does.told (hd : Does s e s' ev) (h : Told s) : Told s' := by
  cases hd with
  | idle => exact h
  | writerTo hq => exact ⟨fun m hm => h.ours m (hq ▸ hm), h.tells⟩
  | sent hm =>
    refine ⟨fun m' hm' => ?_, h.tells⟩
    rcases List.mem_append.1 hm' with hold | hnew
    · exact h.ours m' hold
    · obtain rfl := List.mem_singleton.1 hnew
      exact hm.ours
  | @readerTo r pc a hp =>
    refine ⟨h.ours, h.reader ?_ r⟩
    obtain ⟨m, hm, ht⟩ := h.tells r
    refine ⟨m, hm, ?_⟩
    rcases hp with ⟨rfl, hget⟩ | ⟨err, rfl⟩
    · rw [Reader.Tells, hget] at ht
      exact ht
    · exact ht.sublines
  | received hr hm =>
    exact ⟨fun m' hm' => h.ours m' (List.mem_of_mem_eraseP hm'),
      h.reader (hr.tells (h.ours _ (List.mem_of_find?_eq_some hm)) (List.find?_some hm)
        (h.tells _)) _⟩

/-- What a call does to the lines of a reader. -/
theorem Does.lines (hd : Does s e s' ev) (r : ρ) :
    (s'.reader r).lines = (s.reader r).lines ∨
      ∃ msgsz msgtyp pc m, Asks (s.reader r).pc msgsz msgtyp pc ∧
        s.messages.find? (wanted msgtyp) = some m ∧
        s'.messages = s.messages.eraseP (wanted msgtyp) ∧
        (s'.reader r).lines = (s.reader r).lines ++ [lineOf msgsz m] := by
  cases hd with
  | idle | writerTo | sent => exact .inl rfl
  | @readerTo u pc a hp =>
    refine .inl ?_
    rw [Sys.readerTo]
    by_cases hu : r = u
    · subst hu
      simp only [Function.update_self]
    · simp only [Function.update_of_ne hu]
  | @received msgsz msgtyp u m pc a hr hm =>
    by_cases hu : r = u
    · subst hu
      refine .inr ⟨msgsz, msgtyp, pc, m, hr, hm, rfl, ?_⟩
      simp only [Function.update_self]
    · refine .inl ?_
      simp only [Function.update_of_ne hu]

theorem Does.lines_grow (hd : Does s e s' ev) (r : ρ) :
    (s.reader r).lines <+: (s'.reader r).lines := by
  rcases hd.lines r with hsame | ⟨_, _, _, _, -, -, -, hmore⟩
  · rw [hsame]
  · rw [hmore]
    exact List.prefix_append ..

theorem Asks.eq_first {r : Reader} (h : Asks r.pc msgsz msgtyp pc) (ht : r.Tells m)
    (hnil : r.lines = []) : msgsz = msgszMax ∧ msgtyp = 0 := by
  obtain ⟨rpc, lines⟩ := r
  obtain rfl : lines = [] := hnil
  cases h with
  | first => exact ⟨rfl, rfl⟩
  | five => cases (show [] = [lineOf msgszMax m] from ht)
  | two => cases (show [] = [lineOf msgszMax m, lineFive] from ht)

/-- The first message that a reader prints is the one in front of the queue. -/
theorem Does.front (hd : Does s e s' ev) (h : Told s) (hnil : (s.reader r).lines = [])
    (hnew : (s'.reader r).lines ≠ []) :
    ∃ m, s.messages = m :: s'.messages ∧ (s'.reader r).lines = [lineOf msgszMax m] := by
  rcases hd.lines r with hsame | ⟨msgsz, msgtyp, pc, m, hr, hm, hq, hmore⟩
  · exact (hnew (hsame.trans hnil)).elim
  · obtain ⟨m₁, -, ht⟩ := h.tells r
    obtain ⟨rfl, rfl⟩ := hr.eq_first ht hnil
    refine ⟨m, ?_, by rw [hmore, hnil, List.nil_append]⟩
    cases hs : s.messages with
    | nil =>
      rw [hs] at hm
      cases hm
    | cons x q =>
      rw [hs] at hm hq
      obtain rfl : x = m := Option.some.inj hm
      rw [hq]
      rfl

omit [DecidableEq ω] [DecidableEq ρ] in
theorem Sys.Start.told (h : s.Start) (hq : s.messages = []) : Told s := by
  refine ⟨fun m hm => ?_, fun u => ⟨messageTwo, .inl rfl, ?_⟩⟩
  · rw [hq] at hm
    cases hm
  · rw [h.reader u]
    exact rfl

/-- What a reader prints on a queue of the writers' messages only. Its first line is of the message
that was in front of the queue when it was taken, then comes the whole message of type 5, then the
first ten bytes of the message of type 2. If it exits with 0 it has printed all three. -/
theorem msg1_reader_prints (h : s.Start) (hq : s.messages = []) (es : List (Ev ω ρ)) (r : ρ) :
    let t := run Sys.step s es
    ((t.reader r).lines = [] ∧ (t.reader r).pc ≠ .exited none 0) ∨
    ∃ pre e post m, es = pre ++ e :: post ∧
      ((run Sys.step s pre).reader r).lines = [] ∧
      (run Sys.step s pre).messages = m :: ((run Sys.step s pre).step e).messages ∧
      (((run Sys.step s pre).step e).reader r).lines = [lineOf msgszMax m] ∧
      (m = messageTwo ∨ m = messageFive) ∧
      (t.reader r).lines <+: [lineOf msgszMax m, lineFive, lineTwo] ∧
      ((t.reader r).pc = .exited none 0 →
        (t.reader r).lines = [lineOf msgszMax m, lineFive, lineTwo]) := by
  intro t
  have htold : ∀ es, Told (run Sys.step s es) :=
    run_invariant Told (fun t e ht => (step_does t e).told ht) (h.told hq)
  obtain ⟨m₁, -, ht⟩ := (htold es).tells r
  have hexit : (t.reader r).pc = .exited none 0 →
      (t.reader r).lines = [lineOf msgszMax m₁, lineFive, lineTwo] := by
    intro hpc
    rw [Reader.Tells, hpc] at ht
    exact ht
  by_cases hlines : (t.reader r).lines = []
  · refine .inl ⟨hlines, fun hpc => ?_⟩
    cases hlines.symm.trans (hexit hpc)
  · have hnil : (s.reader r).lines = [] := by rw [h.reader r]
    obtain ⟨pre, e, post, rfl, hpre, hnew⟩ := exists_step_of_run
      (P := fun t : Sys ω ρ => (t.reader r).lines ≠ []) (fun hne => hne hnil) hlines
    have hpre := not_not.1 hpre
    obtain ⟨m, hfront, hone⟩ := (step_does _ e).front (htold pre) hpre hnew
    -- the lines only grow, so the one printed then is still the first
    have hgrow : [lineOf msgszMax m] <+: (t.reader r).lines := by
      have hstart : [lineOf msgszMax m] <+: (((run Sys.step s pre).step e).reader r).lines := by
        rw [hone]
      rw [show t = run Sys.step ((run Sys.step s pre).step e) post from run_append ..]
      exact run_invariant (fun t : Sys ω ρ => [lineOf msgszMax m] <+: (t.reader r).lines)
        (fun t e hle => hle.trans ((step_does t e).lines_grow r)) hstart post
    obtain ⟨hsame, -⟩ := List.cons_prefix_cons.1 (hgrow.trans ht.sublines)
    rw [← hsame] at hexit
    have hours := (htold pre).ours m (hfront ▸ List.mem_cons_self)
    exact .inr ⟨pre, e, post, m, rfl, hpre, hfront, hone, hours, hsame ▸ ht.sublines, hexit⟩

def trio : Sys Bool Unit := ⟨none, 16384, fun _ => .create, fun _ => ⟨.get, []⟩⟩

def trioCalls : List (Ev Bool Unit) :=
  .replicate 3 (.writer false (.done 0)) ++ .replicate 3 (.reader () (.done 0)) ++
    .replicate 4 (.writer true (.done 0)) ++ [.reader () (.done 0)]

theorem msg1_reader_prints_trio :
    ((run Sys.step trio trioCalls).reader ()).pc = .exited none 0 ∧
    ∃ m, (m = messageTwo ∨ m = messageFive) ∧
      ((run Sys.step trio trioCalls).reader ()).lines =
        [lineOf msgszMax m, lineFive, lineTwo] := by
  have hpc : ((run Sys.step trio trioCalls).reader ()).pc = .exited none 0 := by decide +kernel
  rcases msg1_reader_prints (s := trio) ⟨fun _ => rfl, fun _ => rfl⟩ rfl trioCalls () with
    ⟨-, hne⟩ | ⟨_, _, _, m, -, -, -, -, hm, -, hlines⟩
  · exact (hne hpc).elim
  · exact ⟨hpc, m, hm, hlines hpc⟩

end

end SysPrg.MsgDemo
