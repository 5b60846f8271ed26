import SysPrg.Run
import SysPrg.Block

namespace SysPrg.Finger
set_option autoImplicit true

def maxbuf : Nat := 512

def replyMaxlen : Nat := 100 + 256 + 48 + 8 + 8 + 1024 + 4096 + 128

structure Passwd where
  name : CString
  passwd : CString
  uid : UInt32
  gid : UInt32
  gecos : CString
  dir : CString
  shell : CString
  deriving DecidableEq

/-- The server's `argv[0]`, the user name that the client is given, the password database, and what
the buffers have in them that server and client allocate. -/
structure Cfg where
  prg : CString
  name : CString
  name_ne : name.bytes ≠ []
  getpwnam : CString → Option Passwd
  username : Bytes
  username_length : username.length = 32
  reply : Bytes
  reply_length : reply.length = maxbuf

inductive ClientPc where
  | malloc
  | write
  | read
  | close
  | exited (err : Option String) (status : Int)
  | killed
  deriving DecidableEq, Repr

/-- The calls of `process_client`, and where it has written beyond a buffer. -/
inductive ServerPc where
  | mallocUsername
  | read
  | mallocReply (username : CString)
  | write (reply : CString) (status : Int)
  | close (status : Int)
  | exited (err : Option String) (status : Int)
  | killed
  | overrun
  deriving DecidableEq

/-- A connection, and what client and server make of it: the `username` to look up, the `reply`
composed, the bytes that the client has read and the text it prints for them, if there is an end to
it in its buffer. -/
structure Sys where
  c2s : Stream
  s2c : Stream
  cli : ClientPc
  svr : ServerPc
  username : Option CString
  reply : Option CString
  printed : Option (Bytes × Option Bytes)
  deriving DecidableEq

inductive Ev where
  | cli (a : Answer)
  | svr (a : Answer)
  deriving DecidableEq, Repr

def Sys.start : Sys := ⟨.fresh, .fresh, .malloc, .mallocUsername, none, none, none⟩

/-- `username[n] = 0` after the `read`, and the string that is then in the buffer. -/
def terminated (buf bs : Bytes) : Option CString := do
  let buf ← store buf 0 bs
  let buf ← store buf bs.length [0]
  let s ← strAt buf 0
  return .ofBuffer s

def unableReply (prg username : CString) : CString :=
  .snprintf (256 + 256) (.lit "\n" (by decide) ++ prg ++
    .lit " is unable to get info for username \"" (by decide) ++ username ++
    .lit "\"\n" (by decide))

def infoReply (p : Passwd) : CString :=
  .snprintf replyMaxlen (.lit "\tUsername: " (by decide) ++ p.name ++
    .lit "\n\t(encrypted) password: " (by decide) ++ p.passwd ++
    .lit "\n\tUID: " (by decide) ++ .decimal p.uid.toInt32.toInt ++
    .lit "\n\tGID: " (by decide) ++ .decimal p.gid.toInt32.toInt ++
    .lit "\n\tComment/FullName: " (by decide) ++ p.gecos ++
    .lit "\n\tHome dir: " (by decide) ++ p.dir ++
    .lit "\n\tShell: " (by decide) ++ p.shell ++ .lit "\n" (by decide))

def Sys.svrEnds (s : Sys) (pc : ServerPc) : Sys := { s with s2c := s.s2c.close, svr := pc }

def Sys.svrExit (s : Sys) (err : Option String) (status : Int) : Sys :=
  s.svrEnds (.exited err status)

/-- A call of `process_client`. Nobody ignores `SIGPIPE`. -/
def Sys.server (cfg : Cfg) (s : Sys) (a : Answer) : Sys :=
  match s.svr, a with
  | .mallocUsername, .fail _ => s.svrExit (some "no memory for username buffer") 1
  | .mallocUsername, .done _ => { s with svr := .read }
  | .read, .fail _ => s.svrExit (some "socket read error") 6
  | .read, .done k =>
    match s.c2s.recv k 32 with
    | none => s
    | some (bs, st) =>
      match terminated cfg.username bs with
      | none => { s with c2s := st, svr := .overrun }
      | some u => { s with c2s := st, username := some u, svr := .mallocReply u }
  | .mallocReply _, .fail _ => s.svrExit (some "no memory for reply buffer") 1
  | .mallocReply u, .done _ =>
    let (r, status) := match cfg.getpwnam u with
      | none => (unableReply cfg.prg u, 1)
      | some p => (infoReply p, 0)
    { s with reply := some r, svr := .write r status }
  | .write _ _, .fail .epipe => s.svrEnds .killed
  | .write _ _, .fail _ => s.svrExit (some "socket write error") 6
  | .write r status, .done k =>
    { s with s2c := s.s2c.send (chunk k r.bytes.length r.bytes), svr := .close status }
  | .close status, _ => s.svrExit none status
  | .exited _ _, _ => s
  | .killed, _ => s
  | .overrun, _ => s

def Sys.cliEnds (s : Sys) (pc : ClientPc) : Sys := { s with c2s := s.c2s.close, cli := pc }

def Sys.cliExit (s : Sys) (err : Option String) (status : Int) : Sys :=
  s.cliEnds (.exited err status)

def Sys.client (cfg : Cfg) (s : Sys) (a : Answer) : Sys :=
  match s.cli, a with
  | .malloc, .fail _ => s.cliExit (some "malloc failed for reply..") 7
  | .malloc, .done _ => { s with cli := .write }
  | .write, .fail .epipe => s.cliEnds .killed
  | .write, .fail _ => s.cliExit (some "socket write error") 3
  | .write, .done k =>
    { s with c2s := s.c2s.send (chunk k cfg.name.bytes.length cfg.name.bytes), cli := .read }
  | .read, .fail _ => s.cliExit (some "socket read error") 4
  | .read, .done k =>
    match s.s2c.recv k maxbuf with
    | none => s
    -- Unlike the server, the client does not terminate what it has read.
    | some (bs, st) =>
      { s with s2c := st, printed := some (bs, (store cfg.reply 0 bs).bind (strAt · 0)),
               cli := .close }
  | .close, _ => s.cliExit none 0
  | .exited _ _, _ => s
  | .killed, _ => s

def Sys.step (cfg : Cfg) (s : Sys) : Ev → Sys
  | .cli a => s.client cfg a
  | .svr a => s.server cfg a

/-- The server looks up the name that the client was given, nothing is written beyond a buffer, and
what the client prints is what it has read and what the server has composed. -/
structure Sys.Exact (cfg : Cfg) (s : Sys) : Prop where
  name : ∀ u, s.username = some u → u = cfg.name
  inside : s.svr ≠ .overrun
  text : ∀ bs t, s.printed = some (bs, t) → t = some bs ∧ s.reply.map CString.bytes = some bs

/-- A `read` does not get the whole name, or the whole reply, or there is no room for a terminator
behind it, or the terminator that the client relies on is not there. -/
def cut (cfg : Cfg) (s : Sys) : Ev → Bool
  | .svr (.done k) =>
    match s.svr with
    | .read => (s.c2s.recv k 32).isSome && !decide (cfg.name.bytes.length < 32 ∧
        s.c2s.inFlight.length = cfg.name.bytes.length ∧ cfg.name.bytes.length ≤ k + 1)
    | _ => false
  | .cli (.done k) =>
    match s.cli with
    | .read => (s.s2c.recv k maxbuf).isSome &&
        match s.reply with
        | some r => !decide (r.bytes.length < maxbuf ∧ s.s2c.inFlight.length = r.bytes.length ∧
            r.bytes.length ≤ k + 1 ∧ cfg.reply[r.bytes.length]? = some 0)
        | none => true
    | _ => false
  | _ => false

end SysPrg.Finger
