import AdventOS.Agentd.Children
import AdventOS.Agentd.Conns
import AdventOS.Agentd.CronFiles
import AdventOS.Agentd.JobRing
import AdventOS.Agentd.Notices
import AdventOS.Agentd.Redaction
import AdventOS.Cc.Declarations
import AdventOS.Cc.RoundTrip
import AdventOS.Crypto.BignumRefines
import AdventOS.Crypto.Hkdf
import AdventOS.Crypto.Inverse
import AdventOS.Crypto.P256Reduce
import AdventOS.Crypto.Primality
import AdventOS.Crypto.RsaRoundTrip
import AdventOS.Crypto.SigDer
import AdventOS.Crypto.Streaming
import AdventOS.Fs.Atomicity
import AdventOS.Fs.WriteBack
import AdventOS.Json.Calls
import AdventOS.Json.Jsonl
import AdventOS.Kernel.Brk
import AdventOS.Kernel.Descriptors
import AdventOS.Kernel.ElfArgs
import AdventOS.Kernel.Mutex
import AdventOS.Kernel.PagingClone
import AdventOS.Kernel.Pipe
import AdventOS.Kernel.Pty
import AdventOS.Kernel.RunQueue
import AdventOS.Kernel.Sandbox
import AdventOS.Kernel.Schedule
import AdventOS.Kernel.SignalNesting
import AdventOS.Kernel.WaitExit
import AdventOS.Libc.Malloc
import AdventOS.Libc.Qsort
import AdventOS.Libc.Stdio
import AdventOS.Lua.RoundTrip
import AdventOS.Lua.Transparent
import AdventOS.Lua.Traversal
import AdventOS.Net.Arp
import AdventOS.Net.Resolver
import AdventOS.Net.SockBinding
import AdventOS.Net.TcpReceive
import AdventOS.Shell.Calls
import AdventOS.Shell.ControlFlow
import AdventOS.Shell.Glob
import AdventOS.Shell.Paths
import AdventOS.Shell.Quoting
import AdventOS.Ssh.AuthGate
import AdventOS.Ssh.Gcm
import AdventOS.Ssh.Session
import AdventOS.Tls.Agreement
import AdventOS.Tls.CaStore
import AdventOS.Tls.CertVerify
import AdventOS.Tls.Dates
