import SysPrg.Run
import SysPrg.Kernel
import SysPrg.Slots

namespace SysPrg.Counting
set_option autoImplicit true

def mqMaxmsg : Nat := 10

def mqMsgsize : Nat := 8192

def semValueMax : Nat := 2 ^ 31 - 1

/-- The client's calls. The result of its `sem_wait` is only reported, and `got` is what it was. -/
inductive ClientPc where
  | semOpen
  | semWait
  | mqOpen (got : Bool)
  | mqSend (got : Bool)
  | exited (err : Option String) (status : Int)
  deriving DecidableEq, Repr

/-- The server's calls, those of `receive_client_msg` from `mqCreate` to `receive`; `mqd` says
whether it has a queue descriptor. -/
inductive ServerPc where
  | mqUnlink
  | semUnlink
  | semOpen
  | semReopen
  | mqCreate
  | mqReopen
  | getattr (mqd : Bool)
  | calloc
  | receive
  | getvalue
  | sleep
  | post
  | exited (err : String) (status : Int)
  | killed
  deriving DecidableEq, Repr

/-- The server, its clients, and the objects behind `SEM_NAME` and `MQ_NAME`. The server's `sem` is
`SEM_FAILED` when `handle` is false. -/
structure Sys (π : Type) where
  sem : Option Nat
  mq : Option (List Bytes)
  handle : Bool
  svr : ServerPc
  cli : π → ClientPc

inductive Ev (π : Type) where
  | svr (a : Answer)
  | cli (p : π) (a : Answer)
  deriving DecidableEq, Repr

/-- `sem_setup` and `receive_client_msg`, from the return of each call, and the loop around. The
queue is created exclusively every time, and opened when that fails because it exists. -/
def Sys.server (max : Nat) (s : Sys π) (a : Answer) : Sys π :=
  match s.svr, a with
  | .mqUnlink, _ => { s with svr := .semUnlink, mq := none }
  | .semUnlink, _ => { s with svr := .semOpen, sem := none }
  | .semOpen, .fail .eexist => { s with svr := .semReopen }
  | .semOpen, .fail _ => { s with svr := .mqCreate, handle := false }
  | .semOpen, .done _ =>
    match s.sem with
    | some _ => { s with svr := .semReopen }
    | none =>
      if semValueMax < max then { s with svr := .mqCreate, handle := false }
      else { s with svr := .mqCreate, sem := some max, handle := true }
  | .semReopen, .fail _ => { s with svr := .exited "sem_open() failed" 1 }
  | .semReopen, .done _ =>
    match s.sem with
    | some _ => { s with svr := .mqCreate, handle := true }
    | none => { s with svr := .exited "sem_open() failed" 1 }
  | .mqCreate, .fail .eexist => { s with svr := .mqReopen }
  | .mqCreate, .fail _ => { s with svr := .getattr false }
  | .mqCreate, .done _ =>
    match s.mq with
    | some _ => { s with svr := .mqReopen }
    | none => { s with svr := .getattr true, mq := some [] }
  | .mqReopen, .fail _ => { s with svr := .exited "mq_open failed" 1 }
  | .mqReopen, .done _ =>
    match s.mq with
    | some _ => { s with svr := .getattr true }
    | none => { s with svr := .exited "mq_open failed" 1 }
  | .getattr true, .done _ => { s with svr := .calloc }
  | .getattr _, _ => { s with svr := .exited "mq_getattr failed" 1 }
  | .calloc, .fail _ => { s with svr := .exited "calloc failed" 1 }
  | .calloc, .done _ => { s with svr := .receive }
  | .receive, .fail _ => { s with svr := .exited "mq_receive failed" 1 }
  | .receive, .done _ =>
    match s.mq with
    | some (_ :: ms) => { s with svr := .getvalue, mq := some ms }
    | _ => s
  | .getvalue, _ => { s with svr := if s.handle then .sleep else .killed }
  | .sleep, _ => { s with svr := .post }
  | .post, .fail _ => { s with svr := .mqCreate }
  | .post, .done _ =>
    match s.sem with
    | some v => { s with svr := .mqCreate, sem := some (if v < semValueMax then v + 1 else v) }
    | none => { s with svr := .mqCreate }
  | .exited _ _, _ => s
  | .killed, _ => s

section
variable {π : Type} [DecidableEq π]

def Sys.goto (s : Sys π) (p : π) (pc : ClientPc) : Sys π :=
  { s with cli := Function.update s.cli p pc }

/-- The client's `main` and `client_send_request`, for the message `msg`. All clients send with the
same priority, so that the queue is first in, first out. -/
def Sys.client (msg : π → Bytes) (s : Sys π) (p : π) (a : Answer) : Sys π :=
  match s.cli p, a with
  | .semOpen, .fail _ => s.goto p (.exited (some "sem_open() failed") 1)
  | .semOpen, .done _ =>
    match s.sem with
    | some _ => s.goto p .semWait
    | none => s.goto p (.exited (some "sem_open() failed") 1)
  -- The failure is only reported, and the request is sent nevertheless.
  | .semWait, .fail _ => s.goto p (.mqOpen false)
  | .semWait, .done _ =>
    match s.sem with
    | some (v + 1) => Sys.goto { s with sem := some v } p (.mqOpen true)
    | _ => s
  | .mqOpen _, .fail _ => s.goto p (.exited (some "mq_open failed") 1)
  | .mqOpen got, .done _ =>
    match s.mq with
    | some _ => s.goto p (.mqSend got)
    | none => s.goto p (.exited (some "mq_open failed") 1)
  | .mqSend _, .fail _ => s.goto p (.exited (some "client: mq_send() failed") 1)
  | .mqSend _, .done _ =>
    if mqMsgsize < (msg p).length then s.goto p (.exited (some "client: mq_send() failed") 1)
    else
      match s.mq with
      | some ms =>
        if ms.length < mqMaxmsg then
          Sys.goto { s with mq := some (ms ++ [msg p]) } p (.exited none 0)
        else s
      | none => s
  | .exited _ _, _ => s

def Sys.step (max : Nat) (msg : π → Bytes) (s : Sys π) : Ev π → Sys π
  | .svr a => s.server max a
  | .cli p a => s.client msg p a

end

def Sys.start : Sys π := ⟨none, none, false, .mqUnlink, fun _ => .semOpen⟩

/-- The server has taken a request from the queue and not yet posted the semaphore. -/
def ServerPc.busy : ServerPc → Bool
  | .getvalue | .sleep | .post => true
  | _ => false

/-- The client has got past its `sem_wait` by decrementing the semaphore and has not yet sent. -/
def ClientPc.admitted : ClientPc → Bool
  | .mqOpen got | .mqSend got => got
  | _ => false

def Sys.admitted [Fintype π] (s : Sys π) : Finset π :=
  Finset.univ.filter (fun p => (s.cli p).admitted = true)

def Sys.queue (s : Sys π) : List Bytes := s.mq.getD []

end SysPrg.Counting
