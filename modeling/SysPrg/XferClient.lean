import SysPrg.XferServer

namespace SysPrg.Xfer
set_option autoImplicit true

/-- Where the client's `main` stands after `connect`: the call it is about to make. The last three
are its return, an exit through `err_exit`, and its death. -/
inductive ClientPc where
  | writeName (w : RWrite)
  | open3
  | readPage (trecv : Int)
  | writePage (rbuf : Bytes) (w : RWrite) (nr trecv : Int)
  | closeDest
  | closeSock
  | finished
  | exited (err : String) (status : Int)
  | sigpipe
  deriving DecidableEq, Repr

def ClientPc.status : ClientPc → Option Int
  | .finished => some 0
  | .exited _ status => some status
  | _ => none

def ClientPc.ended : ClientPc → Bool
  | .finished | .exited _ _ | .sigpipe => true
  | _ => false

def wroteName : WriteLoop → ClientPc
  | .again w => .writeName w
  | .ret v => if v < 0 then .exited "cli: write error" 1 else .open3

def wroteNamePart (w : RWrite) : Except Errno Nat → ClientPc
  | .error .epipe => .sigpipe
  | r => wroteName (w.resume r)

def gotDest : Except Errno Unit → ClientPc
  | .error _ => .exited "cli: dest file open error" 1
  | .ok _ => .readPage 0

def savedPage (rbuf : Bytes) (nr trecv : Int) : WriteLoop → ClientPc
  | .again w => .writePage rbuf w nr trecv
  | .ret v =>
    if v ≤ 0 then .exited "cli: write error" 1 else .readPage (toInt (trecv + nr))

def gotData (trecv : Int) : Except Errno Bytes → ClientPc
  | .error _ => .exited "cli: read error" 1
  | .ok rbuf =>
    let nr := toInt rbuf.length
    if nr = 0 then .closeDest
    else if nr < 0 then .exited "cli: read error" 1
    else savedPage rbuf nr trecv (rWrite nr.toNat)

structure Client where
  pc : ClientPc
  dest : OpenFile
  deriving DecidableEq, Repr

def Client.goto (c : Client) (pc : ClientPc) : Client := { c with pc := pc }

/-- One call of the client, asked for the pathname `path`, and the code up to the next call. -/
def Client.step (path : Bytes) (page : PageSize) (c : Client) (net : Net) (a : Answer) :
    Client × Net :=
  match c.pc with
  | .writeName w =>
    match a with
    | .fail e => (c.goto (wroteNamePart w (.error e)), net)
    | .done k =>
      let bs := chunk k w.bytestowrite (w.left path)
      (c.goto (wroteNamePart w (.ok bs.length)), { net with c2s := net.c2s.send bs })
  | .open3 =>
    match rOpen3 a.toUnit with
    | none => (c, net)
    | some (.error e) => (c.goto (gotDest (.error e)), net)
    | some (.ok _) => (⟨gotDest (.ok ()), ⟨[], 0⟩⟩, net)
  | .readPage trecv =>
    match a with
    | .fail e =>
      match rRead (.error e) with
      | none => (c, net)
      | some r => (c.goto (gotData trecv r), net)
    | .done k =>
      match net.s2c.recv k page.size with
      | none => (c, net)
      | some (bs, s2c) => (c.goto (gotData trecv (.ok bs)), { net with s2c := s2c })
  | .writePage rbuf w nr trecv =>
    match a with
    | .fail e => (c.goto (savedPage rbuf nr trecv (w.resume (.error e))), net)
    | .done k =>
      let bs := chunk k w.bytestowrite (w.left rbuf)
      (⟨savedPage rbuf nr trecv (w.resume (.ok bs.length)), c.dest.write bs⟩, net)
  | .closeDest =>
    match rClose a.toUnit with
    | none => (c, net)
    | some _ => (c.goto .closeSock, net)
  | .closeSock =>
    match rClose a.toUnit with
    | none => (c, net)
    | some _ => (c.goto .finished, net)
  | .finished | .exited _ _ | .sigpipe => (c, net)

structure Sys where
  svr : Server
  cli : Client
  deriving DecidableEq, Repr

/-- Which of the two makes its next call, and how the kernel answers it. -/
inductive Ev where
  | svr (a : Answer)
  | cli (a : Answer)
  deriving DecidableEq, Repr

/-- The client's side of the connection is closed when its process has ended. -/
def Net.afterClient (net : Net) (pc : ClientPc) : Net :=
  if pc.ended then { net with c2s := net.c2s.close } else net

def Sys.step (cfg : Config) (path : Bytes) (page : PageSize) (s : Sys) : Ev → Sys
  | .svr a => { s with svr := s.svr.step cfg a }
  | .cli a =>
    let r := s.cli.step path page s.svr.net a
    { svr := { s.svr with net := r.2.afterClient r.1.pc }, cli := r.1 }

/-- The connection is set up, and `DESTFILE` has some content or none. -/
def Sys.start (path prior : Bytes) : Sys :=
  { svr := Server.start .fresh, cli := ⟨wroteName (rWrite path.length), ⟨prior, 0⟩⟩ }

end SysPrg.Xfer
