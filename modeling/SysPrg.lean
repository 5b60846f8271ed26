import SysPrg.Run
import SysPrg.Kernel
import SysPrg.Restart
import SysPrg.Block
import SysPrg.Memory
import SysPrg.Numeral
import SysPrg.Strtol
import SysPrg.OnesSum
import SysPrg.Strtok
import SysPrg.Descriptors
import SysPrg.Slots
import SysPrg.Fill
import SysPrg.RobustMutex
import SysPrg.Wait
import SysPrg.XferServer
import SysPrg.XferSent
import SysPrg.XferOpened
import SysPrg.XferModern
import SysPrg.XferClient
import SysPrg.XferSystem
import SysPrg.XferSaved
import SysPrg.XferTransfer
import SysPrg.XferComplete
import SysPrg.XferRequest
import SysPrg.XferService
import SysPrg.FdLoop
import SysPrg.CpuReply
import SysPrg.PreThread
import SysPrg.ForkServer
import SysPrg.Finger
import SysPrg.FingerRun
import SysPrg.GetLine
import SysPrg.UrlDecode
import SysPrg.Checksum
import SysPrg.CopyFile
import SysPrg.CopyRdwr
import SysPrg.CopyMmap
import SysPrg.CopyAgree
import SysPrg.CopyFaults
import SysPrg.SemLock
import SysPrg.SemHeld
import SysPrg.Sem1
import SysPrg.Sem1Race
import SysPrg.Sem2
import SysPrg.Sem2Init
import SysPrg.Counting
import SysPrg.CountSlots
import SysPrg.CountRun
import SysPrg.ShmLines
import SysPrg.ShmTurn
import SysPrg.ShmInside
import SysPrg.ShmMutex
import SysPrg.ShmFill
import SysPrg.MatMul
import SysPrg.MatMulRun
import SysPrg.MatMulAgree
import SysPrg.Bank
import SysPrg.BankRace
import SysPrg.Dotprod
import SysPrg.Stdio
import SysPrg.Shell
import SysPrg.ShellInput
import SysPrg.ShellArgs
import SysPrg.Mysh
import SysPrg.ClearZomb
import SysPrg.Envp
import SysPrg.SigqSnd
import SysPrg.Sanodef
import SysPrg.Sleep
import SysPrg.Primegen
import SysPrg.Timeval
import SysPrg.Dec2bin
import SysPrg.Dec2binTrace
import SysPrg.HexDump
import SysPrg.HexLabels
import SysPrg.MmapSimple
import SysPrg.Room
import SysPrg.SelectServer
import SysPrg.SelectPass
import SysPrg.SelectChat
import SysPrg.SemDemo
import SysPrg.Threads
import SysPrg.Condvar
import SysPrg.CondvarEnds
import SysPrg.RestartCopy
import SysPrg.RestartBlock
import SysPrg.RestartLine
import SysPrg.RestartTimed
import SysPrg.MsgQueue
import SysPrg.MsgDemo
import SysPrg.MtFinger
import SysPrg.MtAnswers
import SysPrg.PosixMq
import SysPrg.ThreadCleanup
import SysPrg.TSig
import SysPrg.TSigFault
import SysPrg.Strerror
import SysPrg.StrerrorTest
import SysPrg.NamedSem
