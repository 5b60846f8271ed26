import SysPrg.Fs
import SysPrg.Restart
import SysPrg.Run

namespace SysPrg.Fileio
set_option autoImplicit true

structure Fd where
  ino : Nat
  off : Nat
  deriving DecidableEq, Repr

def Fd.advance (fd : Fd) (n : Nat) : Fd := { fd with off := fd.off + n }

/-- Where a copying program is. `rdwr_fileio` and `mmap_fileio` open their files and look at the
size of the source in the same way; `op` is the call that the rest of each is at. -/
inductive Pc (ω : Type) where
  | openFrom
  | openTo (fdFrom : Fd)
  | stat (fdFrom fdTo : Fd)
  | body (fdFrom fdTo : Fd) (op : ω)
  | exited (err : Option String) (status : Int)
  deriving DecidableEq, Repr

def Pc.ended : Pc ω → Bool
  | .exited _ _ => true
  | _ => false

structure Copy (α ω : Type) where
  pc : Pc ω
  fs : Fs α

def gotFrom : Except Errno Nat → Pc ω
  | .error _ => .exited (some "open: src file") 1
  | .ok i => .openTo ⟨i, 0⟩

def gotTo (fdFrom : Fd) : Except Errno Nat → Pc ω
  | .error _ => .exited (some "open: dest file") 1
  | .ok i => .stat fdFrom ⟨i, 0⟩

/-- From the return of `stat`, with the first call that follows for a source of `len` bytes. -/
def gotLen (enter : Nat → ω) (fdFrom fdTo : Fd) : Except Errno Nat → Pc ω
  | .error _ => .exited (some "stat") 1
  | .ok len =>
    if len = 0 then .exited (some "%s: source-file %s size is zero bytes, aborting...") 1
    else .body fdFrom fdTo (enter len)

section
variable {α : Type}

def lookup (fs : Fs α) (p : α) : Answer → Except Errno Nat
  | .fail e => .error e
  | .done _ =>
    match fs.dir p with
    | some i => .ok i
    | none => .error .enoent

def stSize (fs : Fs α) (p : α) (a : Answer) : Except Errno Nat :=
  (lookup fs p a).map (fun i => (fs.data i).length)

variable [DecidableEq α]

def openTo (fs : Fs α) (p : α) : Answer → Except Errno (Fs α × Nat)
  | .fail e => .error e
  | .done _ => .ok (fs.openCreat p)

def Copy.step (enter : Nat → ω) (body : Fs α → Fd → Fd → ω → Answer → Copy α ω) (src dst : α)
    (s : Copy α ω) (a : Answer) : Copy α ω :=
  match s.pc with
  | .openFrom =>
    match rOpen2 (lookup s.fs src a) with
    | none => s
    | some r => ⟨gotFrom r, s.fs⟩
  | .openTo fdFrom =>
    match rOpen3 (openTo s.fs dst a) with
    | none => s
    | some (.error e) => ⟨gotTo fdFrom (.error e), s.fs⟩
    | some (.ok (fs, i)) => ⟨gotTo fdFrom (.ok i), fs⟩
  | .stat fdFrom fdTo => ⟨gotLen enter fdFrom fdTo (stSize s.fs src a), s.fs⟩
  | .body fdFrom fdTo op => body s.fs fdFrom fdTo op a
  | .exited _ _ => s

/-- The rest of `rdwr_fileio`, in its `write` with the variables of `r_write`. -/
inductive RdwrOp where
  | malloc
  | read
  | write (buf : Bytes) (nr : Int) (w : RWrite)
  | closeFrom
  | closeTo
  deriving DecidableEq, Repr

def rdwrSize : Nat := 1024 * 1024

def ssizeMax : Nat := 2 ^ 63 - 1

/-- From inside `r_write` or its return. That `nw` is not `nr` is only warned about. -/
def wroteBuf (fdFrom fdTo : Fd) (buf : Bytes) (nr : Int) : WriteLoop → Pc RdwrOp
  | .again w => .body fdFrom fdTo (.write buf nr w)
  | .ret nw => if nw = -1 then .exited (some "write failed") 1 else .body fdFrom fdTo .read

/-- From the return of `r_read`. A result of -1 is not tested for: it is passed on to `r_write`
as the size. -/
def gotBuf (fdFrom fdTo : Fd) : Except Errno Bytes → Pc RdwrOp
  | .error _ => wroteBuf fdFrom fdTo [] (-1) (rWrite (2 ^ 64 - 1))
  | .ok bs =>
    if bs.length = 0 then .body fdFrom fdTo .closeFrom
    else wroteBuf fdFrom fdTo bs bs.length (rWrite bs.length)

/-- The kernel refuses a `write` of more than `SSIZE_MAX` bytes. -/
def rdwrBody (fs : Fs α) (fdFrom fdTo : Fd) : RdwrOp → Answer → Copy α RdwrOp
  | .malloc, .fail _ => ⟨.exited (some "WARNING: write: not same as read bytes") 1, fs⟩
  | .malloc, .done _ => ⟨.body fdFrom fdTo .read, fs⟩
  | .read, a =>
    match rRead (OpenFile.read ⟨fs.data fdFrom.ino, fdFrom.off⟩ rdwrSize a) with
    | none => ⟨.body fdFrom fdTo .read, fs⟩
    | some (.error e) => ⟨gotBuf fdFrom fdTo (.error e), fs⟩
    | some (.ok bs) => ⟨gotBuf (fdFrom.advance bs.length) fdTo (.ok bs), fs⟩
  | .write buf nr w, a =>
    if ssizeMax < w.bytestowrite then
      ⟨wroteBuf fdFrom fdTo buf nr (w.resume (.error .einval)), fs⟩
    else
      match a with
      | .fail e => ⟨wroteBuf fdFrom fdTo buf nr (w.resume (.error e)), fs⟩
      | .done k =>
        let bs := chunk k w.bytestowrite (w.left buf)
        ⟨wroteBuf fdFrom (fdTo.advance bs.length) buf nr (w.resume (.ok bs.length)),
          fs.write fdTo.ino fdTo.off bs⟩
  | .closeFrom, _ => ⟨.body fdFrom fdTo .closeTo, fs⟩
  | .closeTo, _ => ⟨.exited none 0, fs⟩

inductive MmapOp where
  | lseek (len : Nat)
  | write (len : Nat)
  | mmapSrc (len : Nat)
  | mmapDest (len : Nat)
  deriving DecidableEq, Repr

/-- The result of `lseek` is not looked at, the one byte written is the terminator of `""`, and
`memcpy` stores through the shared mapping, without the descriptor's offset. -/
def mmapBody (fs : Fs α) (fdFrom fdTo : Fd) : MmapOp → Answer → Copy α MmapOp
  | .lseek len, _ => ⟨.body fdFrom { fdTo with off := len - 1 } (.write len), fs⟩
  | .write _, .fail _ => ⟨.exited (some "write: to fd_to for 1 byte at eof failed") 1, fs⟩
  | .write len, .done _ =>
    ⟨.body fdFrom (fdTo.advance 1) (.mmapSrc len), fs.write fdTo.ino fdTo.off [0]⟩
  | .mmapSrc _, .fail _ => ⟨.exited (some "mmap: to src file") 1, fs⟩
  | .mmapSrc len, .done _ => ⟨.body fdFrom fdTo (.mmapDest len), fs⟩
  | .mmapDest _, .fail _ => ⟨.exited (some "mmap: to dest file") 1, fs⟩
  | .mmapDest len, .done _ =>
    ⟨.exited none 0, fs.write fdTo.ino 0 ((fs.data fdFrom.ino).take len)⟩

def rdwrStep (src dst : α) : Copy α RdwrOp → Answer → Copy α RdwrOp :=
  Copy.step (fun _ => .malloc) rdwrBody src dst

def mmapStep (src dst : α) : Copy α MmapOp → Answer → Copy α MmapOp :=
  Copy.step .lseek mmapBody src dst

/-- `rdwr_fileio src dst`, as far as its calls have been answered. -/
def rdwrFileio (src dst : α) (fs : Fs α) (as : List Answer) : Copy α RdwrOp :=
  run (rdwrStep src dst) ⟨.openFrom, fs⟩ as

def mmapFileio (src dst : α) (fs : Fs α) (as : List Answer) : Copy α MmapOp :=
  run (mmapStep src dst) ⟨.openFrom, fs⟩ as

def RdwrOp.restarts : RdwrOp → Bool
  | .read | .write _ _ _ => true
  | _ => false

def Pc.restarts (restartsOp : ω → Bool) : Pc ω → Bool
  | .openFrom | .openTo _ => true
  | .body _ _ op => restartsOp op
  | _ => false

/-- The call that a program is at fails, other than by an interruption after which it is made
again. -/
def Pc.fails (restartsOp : ω → Bool) (pc : Pc ω) : Answer → Bool
  | .done _ => false
  | .fail e => e != .eintr || !pc.restarts restartsOp

def rdwrFails (s : Copy α RdwrOp) (a : Answer) : Bool := s.pc.fails RdwrOp.restarts a

def mmapFails (s : Copy α MmapOp) (a : Answer) : Bool := s.pc.fails (fun _ => false) a

end

end SysPrg.Fileio
