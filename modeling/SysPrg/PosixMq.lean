import Mathlib.Logic.Function.Basic
import SysPrg.MsgQueue
import SysPrg.Strtol
import SysPrg.Block

namespace SysPrg.PosixMq
set_option autoImplicit true

structure MqMsg where
  prio : Nat
  text : Bytes
  deriving DecidableEq, Repr

/-- `sysconf(_SC_MQ_PRIO_MAX)`. -/
def prioMax : Nat := 32768

/-- How many messages a queue takes, and of how many bytes each. -/
structure Attr where
  maxmsg : Nat
  msgsize : Nat
  deriving DecidableEq, Repr

/-- The attributes that a queue gets when none are asked for, as they usually are. -/
def defaults : Attr := ⟨10, 8192⟩

def atoi (s : CString) : Int32 := (strtol 10 s.bytes).val.toInt32

/-- The checks that `sender_mq` makes of its arguments, and the message it makes of them. `prio` is
unsigned, and never below zero. -/
def checkArgs : List CString → Except String MqMsg
  | [_, text, prio] =>
    let prio := (atoi prio).toUInt32.toNat
    if text.bytes.length = 0 then .error "invalid message? Aborting..."
    else if prio > prioMax then .error "invalid priority value, aborting..."
    else .ok ⟨prio, text.bytes⟩
  | _ => .error "Usage: \"msg to send\" priority"

/-- Where a `sender_mq` is. `mymq` says whether it has a descriptor: without one it goes on if the
reason was not `EEXIST`. -/
inductive Sender where
  | start
  | create (m : MqMsg)
  | open (m : MqMsg)
  | send (m : MqMsg) (mymq : Bool)
  | exited (err : Option String) (status : Int)
  deriving DecidableEq, Repr

inductive ReceiverPc where
  | create
  | open
  | getattr (mymq : Bool)
  | calloc
  | receive
  | exited (err : String) (status : Int)
  deriving DecidableEq, Repr

structure Receiver where
  pc : ReceiverPc
  lines : List MqMsg
  deriving DecidableEq, Repr

/-- The queue `/myposixmq`, if there is one, and the processes of the two programs. -/
structure Sys (σ ρ : Type) where
  queue : Option (List MqMsg)
  sender : σ → Sender
  receiver : ρ → Receiver

inductive Ev (σ ρ : Type) where
  | sender (w : σ) (a : Answer)
  | receiver (r : ρ) (a : Answer)
  deriving DecidableEq, Repr

/-- Whether no message of the queue has a higher priority. -/
def highest (q : List MqMsg) (m : MqMsg) : Bool := q.all fun x => x.prio ≤ m.prio

section
variable {σ ρ : Type} [DecidableEq σ] [DecidableEq ρ]

def Sys.senderTo (s : Sys σ ρ) (w : σ) (p : Sender) : Sys σ ρ :=
  { s with sender := Function.update s.sender w p }

def Sys.receiverTo (s : Sys σ ρ) (r : ρ) (pc : ReceiverPc) : Sys σ ρ :=
  { s with receiver := Function.update s.receiver r { s.receiver r with pc } }

/-- `mq_send`, which waits as long as the queue is full. A priority of `MQ_PRIO_MAX` is one too
many. -/
def Sys.mqSend (attr : Attr) (s : Sys σ ρ) (w : σ) (m : MqMsg) :
    Answer → Sys σ ρ × Option (QueueEv MqMsg)
  | .fail _ => (s.senderTo w (.exited (some "mq_send failed") 1), none)
  | .done _ =>
    match s.queue with
    | none => (s.senderTo w (.exited (some "mq_send failed") 1), none)
    | some q =>
      if prioMax ≤ m.prio ∨ attr.msgsize < m.text.length then
        (s.senderTo w (.exited (some "mq_send failed") 1), none)
      else if q.length < attr.maxmsg then
        ({ s with queue := some (q ++ [m]) }.senderTo w (.exited none 0), some (.sent m))
      else (s, none)

def Sys.send (attr : Attr) (args : σ → List CString) (s : Sys σ ρ) (w : σ) (a : Answer) :
    Sys σ ρ × Option (QueueEv MqMsg) :=
  match s.sender w with
  | .start =>
    match checkArgs (args w) with
    | .error err => (s.senderTo w (.exited (some err) 1), none)
    | .ok m => (s.senderTo w (.create m), none)
  | .create m =>
    match a, s.queue with
    | .fail .eexist, _ => (s.senderTo w (.open m), none)
    | .fail _, _ => (s.senderTo w (.send m false), none)
    | .done _, some _ => (s.senderTo w (.open m), none)
    | .done _, none => ({ s with queue := some [] }.senderTo w (.send m true), none)
  | .open m =>
    match a, s.queue with
    | .done _, some _ => (s.senderTo w (.send m true), none)
    | _, _ => (s.senderTo w (.exited (some "mq_open failed") 1), none)
  | .send m true => s.mqSend attr w m a
  | .send _ false => (s.senderTo w (.exited (some "mq_send failed") 1), none)
  | .exited _ _ => (s, none)

/-- `mq_receive` takes the oldest message of the highest priority, and waits if there is none. -/
def Sys.mqReceive (s : Sys σ ρ) (r : ρ) : Answer → Sys σ ρ × Option (QueueEv MqMsg)
  | .fail _ => (s.receiverTo r (.exited "mq_receive failed" 1), none)
  | .done _ =>
    match s.queue with
    | none => (s.receiverTo r (.exited "mq_receive failed" 1), none)
    | some q =>
      match q.find? (highest q) with
      | none => (s, none)
      | some m =>
        ({ s with
            queue := some (q.eraseP (highest q))
            receiver := Function.update s.receiver r ⟨.receive, (s.receiver r).lines ++ [m]⟩ },
          some (.received m))

def Sys.receive (s : Sys σ ρ) (r : ρ) (a : Answer) : Sys σ ρ × Option (QueueEv MqMsg) :=
  match (s.receiver r).pc with
  | .create =>
    match a, s.queue with
    | .fail .eexist, _ => (s.receiverTo r .open, none)
    | .fail _, _ => (s.receiverTo r (.getattr false), none)
    | .done _, some _ => (s.receiverTo r .open, none)
    | .done _, none => ({ s with queue := some [] }.receiverTo r (.getattr true), none)
  | .open =>
    match a, s.queue with
    | .done _, some _ => (s.receiverTo r (.getattr true), none)
    | _, _ => (s.receiverTo r (.exited "mq_open failed" 1), none)
  | .getattr mymq =>
    match a, mymq with
    | .done _, true => (s.receiverTo r .calloc, none)
    | _, _ => (s.receiverTo r (.exited "mq_getattr failed" 1), none)
  | .calloc =>
    match a with
    | .fail _ => (s.receiverTo r (.exited "calloc failed" 1), none)
    | .done _ => (s.receiverTo r .receive, none)
  | .receive => s.mqReceive r a
  | .exited _ _ => (s, none)

def Sys.call (attr : Attr) (args : σ → List CString) (s : Sys σ ρ) :
    Ev σ ρ → Sys σ ρ × Option (QueueEv MqMsg)
  | .sender w a => s.send attr args w a
  | .receiver r a => s.receive r a

def Sys.step (attr : Attr) (args : σ → List CString) (s : Sys σ ρ) (e : Ev σ ρ) : Sys σ ρ :=
  (s.call attr args e).1

def Ev.party : Ev σ ρ → σ ⊕ ρ
  | .sender w _ => .inl w
  | .receiver r _ => .inr r

def Sys.event (attr : Attr) (args : σ → List CString) (s : Sys σ ρ) (e : Ev σ ρ) :
    Option ((σ ⊕ ρ) × QueueEv MqMsg) :=
  (s.call attr args e).2.map fun ev => (e.party, ev)

def Sys.messages (s : Sys σ ρ) : List MqMsg := s.queue.getD []

def Sys.Start (s : Sys σ ρ) : Prop := ∀ w, s.sender w = .start

end

def Sender.message : Sender → Option MqMsg
  | .create m | .open m | .send m _ => some m
  | .start | .exited _ _ => none

def Sender.done : Sender → Bool
  | .exited none _ => true
  | _ => false

def Sender.Ok (args : List CString) (p : Sender) : Prop :=
  ∀ m, p.message = some m → checkArgs args = .ok m

/-- What a sender has sent: the one message that its arguments say, if it has exited with 0. -/
def Sender.Sent (attr : Attr) (args : List CString) (p : Sender) (ms : List MqMsg) : Prop :=
  if p.done then
    ∃ m, checkArgs args = .ok m ∧ m.prio < prioMax ∧ m.text.length ≤ attr.msgsize ∧ ms = [m]
  else ms = []

theorem highest_eq_of_prio (q : List MqMsg) {m n : MqMsg} (h : m.prio = n.prio) :
    highest q m = highest q n := by
  rw [highest, highest, h]

theorem messages_of_queue {s : Sys σ ρ} (h : s.queue = some q) : s.messages = q := by
  rw [Sys.messages, h]
  rfl

section
variable {σ ρ : Type} [DecidableEq σ] [DecidableEq ρ] {attr : Attr} {args : σ → List CString}
  {s s' : Sys σ ρ}

inductive Does (attr : Attr) (args : σ → List CString) (s : Sys σ ρ) :
    Ev σ ρ → Sys σ ρ → Option (QueueEv MqMsg) → Prop where
  | idle : Does attr args s e s none
  | senderTo {w : σ} {p : Sender} (hq : q.getD [] = s.messages) (hold : (s.sender w).done = false)
      (hp : p.done = false) (hok : (s.sender w).Ok (args w) → p.Ok (args w)) :
    Does attr args s (.sender w a) ({ s with queue := q }.senderTo w p) none
  | sent {w : σ} (hw : s.sender w = .send m true) (hprio : m.prio < prioMax)
      (hlen : m.text.length ≤ attr.msgsize) (hroom : s.messages.length < attr.maxmsg) :
    Does attr args s (.sender w a)
      ({ s with queue := some (s.messages ++ [m]) }.senderTo w (.exited none 0)) (some (.sent m))
  | receiverTo {r : ρ} {pc : ReceiverPc} (hq : q.getD [] = s.messages) :
    Does attr args s (.receiver r a) ({ s with queue := q }.receiverTo r pc) none
  | received {r : ρ} (hm : s.messages.find? (highest s.messages) = some m) :
    Does attr args s (.receiver r a)
      { s with
        queue := some (s.messages.eraseP (highest s.messages))
        receiver := Function.update s.receiver r ⟨.receive, (s.receiver r).lines ++ [m]⟩ }
      (some (.received m))

theorem Does.exits (hold : (s.sender w).done = false) (err : String) :
    Does attr args s (.sender w a) (s.senderTo w (.exited (some err) 1)) none :=
  .senderTo (q := s.queue) rfl hold rfl fun _ => nofun

theorem mqSend_does (hw : s.sender w = .send m true) (a : Answer) :
    Does attr args s (.sender w a) (s.mqSend attr w m a).1 (s.mqSend attr w m a).2 := by
  have hold : (s.sender w).done = false := by rw [hw]; rfl
  unfold Sys.mqSend
  split
  case h_1 => exact .exits hold _
  case h_2 =>
    split
    case h_1 => exact .exits hold _
    case h_2 q hq =>
      rw [← messages_of_queue hq]
      split
      · exact .exits hold _
      · next hok =>
        split
        · next hroom => exact .sent hw (by omega) (by omega) hroom
        · exact .idle

theorem send_does (s : Sys σ ρ) (w : σ) (a : Answer) :
    Does attr args s (.sender w a) (s.send attr args w a).1 (s.send attr args w a).2 := by
  unfold Sys.send
  split
  case h_1 hw =>
    have hold : (s.sender w).done = false := by rw [hw]; rfl
    split
    case h_1 => exact .exits hold _
    case h_2 m hm =>
      refine .senderTo (q := s.queue) rfl hold rfl fun _ m' hm' => ?_
      obtain rfl : m = m' := Option.some.inj hm'
      exact hm
  case h_2 m hw =>
    have hold : (s.sender w).done = false := by rw [hw]; rfl
    have hkeep : ∀ p : Sender, p.message = some m → (s.sender w).Ok (args w) → p.Ok (args w) := by
      intro p hp hok m' hm'
      refine hok m' ?_
      rw [hw, ← hm', hp]
      rfl
    split
    case h_1 => exact .senderTo (q := s.queue) rfl hold rfl (hkeep _ rfl)
    case h_2 => exact .senderTo (q := s.queue) rfl hold rfl (hkeep _ rfl)
    case h_3 => exact .senderTo (q := s.queue) rfl hold rfl (hkeep _ rfl)
    case h_4 hq => exact .senderTo (by rw [Sys.messages, hq]; rfl) hold rfl (hkeep _ rfl)
  case h_3 m hw =>
    have hold : (s.sender w).done = false := by rw [hw]; rfl
    split
    · refine .senderTo (q := s.queue) rfl hold rfl fun hok m' hm' => hok m' ?_
      rw [hw, ← hm']
      rfl
    · exact .exits hold _
  case h_4 m hw => exact mqSend_does hw a
  case h_5 hw => exact .exits (by rw [hw]; rfl) _
  case h_6 => exact .idle

theorem mqReceive_does (s : Sys σ ρ) (r : ρ) (a : Answer) :
    Does attr args s (.receiver r a) (s.mqReceive r a).1 (s.mqReceive r a).2 := by
  unfold Sys.mqReceive
  split
  case h_1 => exact .receiverTo (q := s.queue) rfl
  case h_2 =>
    split
    case h_1 => exact .receiverTo (q := s.queue) rfl
    case h_2 q hq =>
      rw [← messages_of_queue hq]
      split
      case h_1 => exact .idle
      case h_2 m hm => exact .received hm

theorem receive_does (s : Sys σ ρ) (r : ρ) (a : Answer) :
    Does attr args s (.receiver r a) (s.receive r a).1 (s.receive r a).2 := by
  have hto : ∀ pc, Does attr args s (.receiver r a) (s.receiverTo r pc) none :=
    fun _ => .receiverTo (q := s.queue) rfl
  unfold Sys.receive
  split
  case h_1 =>
    split
    case h_4 hq => exact .receiverTo (by rw [Sys.messages, hq]; rfl)
    all_goals exact hto _
  case h_2 => split <;> exact hto _
  case h_3 => split <;> exact hto _
  case h_4 => split <;> exact hto _
  case h_5 => exact mqReceive_does s r a
  case h_6 => exact .idle

theorem step_does (s : Sys σ ρ) (e : Ev σ ρ) :
    Does attr args s e (s.step attr args e) (s.call attr args e).2 := by
  cases e with
  | sender w a => exact send_does s w a
  | receiver r a => exact receive_does s r a

theorem Does.queued (h : Does attr args s e s' ev) :
    Queued MqMsg.prio s.messages s'.messages ev := by
  have hsame : ∀ {q : List MqMsg}, q = s.messages → Queued MqMsg.prio s.messages q none := by
    rintro q rfl
    exact .same
  cases h with
  | idle => exact .same
  | senderTo hq => exact hsame hq
  | sent => exact .sent _
  | receiverTo hq => exact hsame hq
  | received hm => exact .received (fun _ _ => highest_eq_of_prio _) hm

theorem Does.length_le (h : Does attr args s e s' ev) (hle : s.messages.length ≤ attr.maxmsg) :
    s'.messages.length ≤ attr.maxmsg := by
  cases h with
  | idle => exact hle
  | senderTo hq => exact (congrArg List.length hq).trans_le hle
  | sent _ _ _ hroom =>
    have hlen : ∀ m, (s.messages ++ [m]).length = s.messages.length + 1 :=
      fun _ => List.length_append
    exact (hlen _).trans_le hroom
  | receiverTo hq => exact (congrArg List.length hq).trans_le hle
  | received => exact (List.length_eraseP_le ..).trans hle

theorem Does.prints (h : Does attr args s e s' ev) (r : ρ)
    (hm : (s'.receiver r).lines = (s.receiver r).lines ++ [m]) :
    m ∈ s.messages ∧ ∀ x ∈ s.messages, x.prio ≤ m.prio := by
  have hsame : (s'.receiver r).lines ≠ (s.receiver r).lines := by
    rw [hm]
    exact fun he => List.cons_ne_nil m [] (List.append_right_eq_self.1 he)
  cases h with
  | idle | senderTo | sent => exact (hsame rfl).elim
  | @receiverTo q a u pc hq =>
    refine (hsame ?_).elim
    rw [Sys.receiverTo]
    by_cases hu : r = u
    · subst hu
      simp only [Function.update_self]
    · simp only [Function.update_of_ne hu]
  | @received m' a u hm' =>
    by_cases hu : r = u
    · subst hu
      simp only [Function.update_self, List.append_cancel_left_eq, List.cons.injEq, and_true] at hm
      subst hm
      have hall : highest s.messages m' = true := List.find?_some hm'
      exact ⟨List.mem_of_find?_eq_some hm',
        fun x hx => of_decide_eq_true (List.all_eq_true.1 hall x hx)⟩
    · refine (hsame ?_).elim
      simp only [Function.update_of_ne hu]

/-- Where the processes are says what each of them did to the queue, since `s₀`. -/
structure Tied (attr : Attr) (args : σ → List CString) (s₀ s : Sys σ ρ)
    (hist : List ((σ ⊕ ρ) × QueueEv MqMsg)) : Prop where
  ok : ∀ w, (s.sender w).Ok (args w)
  sender : ∀ w, (s.sender w).Sent attr (args w) (allSent (doneBy (.inl w) hist))
  receiver : ∀ r, (s.receiver r).lines =
      (s₀.receiver r).lines ++ allReceived (doneBy (.inr r) hist) ∧
    allSent (doneBy (.inr r) hist) = []

theorem Does.tied (hd : Does attr args s e s' ev) (h : Tied attr args s₀ s hist) :
    Tied attr args s₀ s' (hist ++ (ev.map fun ev => (e.party, ev)).toList) := by
  cases hd with
  | idle => rwa [Option.map_none, Option.toList_none, List.append_nil]
  | @senderTo a q w p hq hold hp hok =>
    rw [Option.map_none, Option.toList_none, List.append_nil]
    refine ⟨?_, ?_, h.receiver⟩
    · exact (Function.forall_update_iff s.sender fun v (x : Sender) => x.Ok (args v)).2
        ⟨hok (h.ok w), fun v _ => h.ok v⟩
    · refine (Function.forall_update_iff s.sender fun v (x : Sender) =>
        x.Sent attr (args v) (allSent (doneBy (Sum.inl v) hist))).2 ⟨?_, fun v _ => h.sender v⟩
      have hw := h.sender w
      rw [Sender.Sent, hold] at hw
      rw [Sender.Sent, hp]
      exact hw
  | @sent m a w hw hprio hlen =>
    refine ⟨?_, ?_, fun r => ?_⟩
    · have hok : (Sender.exited none 0).Ok (args w) := fun m hm => by cases hm
      exact (Function.forall_update_iff s.sender fun v (x : Sender) => x.Ok (args v)).2
        ⟨hok, fun v _ => h.ok v⟩
    · refine forall_doneBy Sum.inl_injective
        (fun v x es => Sender.Sent attr (args v) x (allSent es)) h.sender ?_
      have hnone := h.sender w
      rw [hw] at hnone
      rw [allSent_sent, show allSent (doneBy (.inl w) hist) = [] from hnone]
      exact ⟨m, h.ok w m (by rw [hw]; rfl), hprio, hlen, rfl⟩
    · rw [Option.map_some, Option.toList_some, Ev.party, doneBy_of_ne Sum.inl_ne_inr]
      exact h.receiver r
  | @receiverTo q a r pc hq =>
    rw [Option.map_none, Option.toList_none, List.append_nil]
    exact ⟨h.ok, h.sender, (Function.forall_update_iff s.receiver fun u (x : Receiver) =>
      x.lines = (s₀.receiver u).lines ++ allReceived (doneBy (Sum.inr u) hist) ∧
        allSent (doneBy (Sum.inr u) hist) = []).2 ⟨h.receiver r, fun u _ => h.receiver u⟩⟩
  | @received m a r hm =>
    refine ⟨h.ok, fun w => ?_, ?_⟩
    · rw [Option.map_some, Option.toList_some, Ev.party, doneBy_of_ne Sum.inr_ne_inl]
      exact h.sender w
    · refine forall_doneBy Sum.inr_injective
        (fun u (x : Receiver) es =>
          x.lines = (s₀.receiver u).lines ++ allReceived es ∧ allSent es = []) h.receiver ?_
      rw [allReceived_received, allSent_received, ← List.append_assoc, ← (h.receiver r).1]
      exact ⟨rfl, (h.receiver r).2⟩

theorem run_tied {s : Sys σ ρ} (h : s.Start) (es : List (Ev σ ρ)) :
    Tied attr args s (run (Sys.step attr args) s es)
      (trace (Sys.event attr args) (Sys.step attr args) s es) := by
  have hstart : Tied attr args s s [] := by
    refine ⟨fun w => ?_, fun w => ?_, fun r => ⟨(List.append_nil _).symm, rfl⟩⟩
    · rw [h w]
      nofun
    · rw [h w]
      rfl
  exact run_trace (Tied attr args s) (fun s _ e hd => (step_does s e).tied hd) hstart es

def twoArgs (late : Bool) : List CString :=
  [.lit "sender_mq" (by decide), .lit "note" (by decide),
    if late then .lit "30" (by decide) else .lit "4" (by decide)]

def twoSenders : Sys Bool Unit := ⟨none, fun _ => .start, fun _ => ⟨.create, []⟩⟩

/-- Both send, the second a more urgent message, and then the receiver begins. -/
def twoCalls : List (Ev Bool Unit) :=
  .replicate 3 (.sender false (.done 0)) ++ .replicate 4 (.sender true (.done 0)) ++
    .replicate 6 (.receiver () (.done 0))

/-- A sender has put the message that its arguments say into the queue, and nothing else, if it has
exited with 0, and nothing if it has not. The message then had a priority below `MQ_PRIO_MAX`: with
just that many, its own check lets it pass and `mq_send` does not. -/
theorem mq_sender_sends {s : Sys σ ρ} (h : s.Start) (es : List (Ev σ ρ)) (w : σ) :
    let t := run (Sys.step attr args) s es
    let sent := allSent (doneBy (.inl w) (trace (Sys.event attr args) (Sys.step attr args) s es))
    ((t.sender w).done = false → sent = []) ∧
    ((t.sender w).done = true → ∃ m, checkArgs (args w) = .ok m ∧ m.prio < prioMax ∧
      m.text.length ≤ attr.msgsize ∧ sent = [m]) := by
  intro t sent
  have hsent : (t.sender w).Sent attr (args w) sent := (run_tied h es).sender w
  refine ⟨fun hdone => ?_, fun hdone => ?_⟩
  · rwa [Sender.Sent, if_neg (by rw [hdone]; exact Bool.false_ne_true)] at hsent
  · rwa [Sender.Sent, if_pos hdone] at hsent

theorem mq_sender_sends_two :
    ((run (Sys.step defaults twoArgs) twoSenders twoCalls).sender true).done = true ∧
    ∃ m, checkArgs (twoArgs true) = .ok m ∧ m.prio < prioMax ∧ m.text.length ≤ defaults.msgsize ∧
      allSent (doneBy (.inl true)
        (trace (Sys.event defaults twoArgs) (Sys.step defaults twoArgs) twoSenders twoCalls)) =
        [m] := by
  have hdone : ((run (Sys.step defaults twoArgs) twoSenders twoCalls).sender true).done = true := by
    decide +kernel
  exact ⟨hdone, (mq_sender_sends (fun _ => rfl) twoCalls true).2 hdone⟩

end

end SysPrg.PosixMq
