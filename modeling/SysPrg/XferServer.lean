import SysPrg.Run
import SysPrg.Restart

namespace SysPrg.Xfer
set_option autoImplicit true

def traditional : Int := 1

def modern : Int := 2

def pathMax : Nat := 4096

/-- `getpagesize` returns a positive `int`. -/
structure PageSize where
  size : Nat
  pos : 0 < size
  fits : size < 2 ^ 31

theorem PageSize.next_length (page : PageSize) (f : OpenFile) (k : Nat) :
    (f.next k page.size).length < 2 ^ 31 := by
  have := page.fits
  simp only [OpenFile.next, chunk_length]
  omega

def page4k : PageSize := ⟨4096, by decide, by decide⟩

/-- What the server was started with: the regular files it can open, by pathname, the transfer
method chosen on the command line, and the page size. -/
structure Config where
  files : Bytes → Option Bytes
  howto : Int
  page : PageSize

/-- Where `process_client` stands: the call it is about to make, with the locals that are still
needed. The last four are the ways in which it can end. -/
inductive Pc where
  | malloc
  | read
  | open2 (file2send : Bytes)
  | fstat
  | sendfile (stSize : Nat)
  | readPage (tsent : Int)
  | writePage (rbuf : Bytes) (w : RWrite) (nr tsent : Int)
  | closeFile
  | closeSock
  | returned (rv : Int)
  | exited (err : String) (status : Int)
  | sigpipe
  | overrun
  deriving DecidableEq, Repr

def Pc.dead : Pc → Bool
  | .exited _ _ | .sigpipe => true
  | _ => false

def Pc.failed : Pc → Bool
  | .exited _ _ | .sigpipe | .overrun => true
  | _ => false

def errExit (err : String) (exitcode : Int) : Pc := .exited err exitcode

def gotBuffer : Except Errno Unit → Pc
  | .error _ => .exited "no memory for username buffer" 1
  | .ok _ => .read

/-- `file2send[n] = '\0'` and the string that then starts at `file2send`. The buffer has
`PATH_MAX` bytes, so that the store is out of bounds when the request fills it. -/
def gotRequest : Except Errno Bytes → Pc
  | .error _ => errExit "svr: socket read error" 1
  | .ok bs => if bs.length < pathMax then .open2 (cStr bs) else .overrun

def gotFile (howto : Int) : Except Errno Unit → Pc
  | .error _ => errExit "svr: file open error" 1
  | .ok _ =>
    if howto = modern then .fstat
    else if howto = traditional then .readPage 0
    else .closeFile -- neither branch of the source is taken

def gotStat : Except Errno Nat → Pc
  | .error _ => errExit "svr: fstat error" 1
  | .ok stSize => .sendfile stSize

/-- `sendfile` returns a `ssize_t` that is stored in the `int` `tsent`. -/
def sentFile : Except Errno Nat → Pc
  | .error .epipe => .sigpipe
  | .error _ => errExit "svr: sendfile error" 1
  | .ok n => if toInt n < 0 then errExit "svr: sendfile error" 1 else .closeFile

def wrotePage (rbuf : Bytes) (nr tsent : Int) : WriteLoop → Pc
  | .again w => .writePage rbuf w nr tsent
  | .ret v => if v ≤ 0 then errExit "svr: write error" 1 else .readPage (toInt (tsent + nr))

def gotPage (tsent : Int) : Except Errno Bytes → Pc
  | .error _ => errExit "svr: read error" 1
  | .ok rbuf =>
    let nr := toInt rbuf.length
    if nr = 0 then .closeFile
    else if nr < 0 then errExit "svr: read error" 1
    else wrotePage rbuf nr tsent (rWrite nr.toNat)

/-- A `write` on a socket whose reader is gone raises `SIGPIPE` before it returns `EPIPE`, and
the program leaves that signal at its default action. -/
def wroteSome (rbuf : Bytes) (w : RWrite) (nr tsent : Int) : Except Errno Nat → Pc
  | .error .epipe => .sigpipe
  | r => wrotePage rbuf nr tsent (w.resume r)

structure Net where
  c2s : Stream
  s2c : Stream
  deriving DecidableEq, Repr

/-- The server inside `process_client`, with its open file and its side of the connection. -/
structure Server where
  pc : Pc
  fd : OpenFile
  net : Net
  deriving DecidableEq, Repr

/-- Control moves to `pc`; the kernel closes the socket of a process that has ended. -/
def Server.goto (s : Server) (pc : Pc) : Server :=
  { s with pc := pc, net.s2c := if pc.dead then s.net.s2c.close else s.net.s2c }

def Config.open (cfg : Config) (name : Bytes) : Answer → Except Errno Bytes
  | .fail e => .error e
  | .done _ =>
    match cfg.files name with
    | none => .error .enoent
    | some data => .ok data

/-- One call of `process_client`, answered by the kernel, and the code up to the next one. -/
def Server.step (cfg : Config) (s : Server) (a : Answer) : Server :=
  match s.pc with
  | .malloc => s.goto (gotBuffer a.toUnit)
  | .read =>
    match a with
    | .fail e => s.goto (gotRequest (.error e))
    | .done k =>
      match s.net.c2s.recv k pathMax with
      | none => s
      | some (bs, c2s) => Server.goto { s with net.c2s := c2s } (gotRequest (.ok bs))
  | .open2 name =>
    match rOpen2 (cfg.open name a) with
    | none => s
    | some (.error e) => s.goto (gotFile cfg.howto (.error e))
    | some (.ok data) => Server.goto { s with fd := ⟨data, 0⟩ } (gotFile cfg.howto (.ok ()))
  | .fstat =>
    match a with
    | .fail e => s.goto (gotStat (.error e))
    | .done _ => s.goto (gotStat (.ok s.fd.data.length))
  | .sendfile stSize =>
    match a with
    | .fail e => s.goto (sentFile (.error e))
    | .done k =>
      let bs := s.fd.next k stSize
      Server.goto { s with fd := s.fd.advance bs.length, net.s2c := s.net.s2c.send bs }
        (sentFile (.ok bs.length))
  | .readPage tsent =>
    match rRead (s.fd.read cfg.page.size a) with
    | none => s
    | some (.error e) => s.goto (gotPage tsent (.error e))
    | some (.ok bs) =>
      Server.goto { s with fd := s.fd.advance bs.length } (gotPage tsent (.ok bs))
  | .writePage rbuf w nr tsent =>
    match a with
    | .fail e => s.goto (wroteSome rbuf w nr tsent (.error e))
    | .done k =>
      let bs := chunk k w.bytestowrite (w.left rbuf)
      Server.goto { s with net.s2c := s.net.s2c.send bs }
        (wroteSome rbuf w nr tsent (.ok bs.length))
  | .closeFile =>
    match rClose a.toUnit with
    | none => s
    | some _ => s.goto .closeSock
  | .closeSock =>
    match rClose a.toUnit with
    | none => s
    | some _ => Server.goto { s with net.s2c := s.net.s2c.close } (.returned 0)
  | .returned _ | .exited _ _ | .sigpipe | .overrun => s

def Server.start (c2s : Stream) : Server := ⟨.malloc, ⟨[], 0⟩, ⟨c2s, .fresh⟩⟩

end SysPrg.Xfer
