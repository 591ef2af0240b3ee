import Nuttx.Drivers.Bch.Proof
import Nuttx.Drivers.Mtd.Proof.Ftl
import Nuttx.Drivers.Mtd.Proof.Sector512
import Nuttx.Drivers.Pipes.Proof.Counts
import Nuttx.Drivers.Pipes.Proof.Stream
import Nuttx.Drivers.Rwbuffer.Invalidate
import Nuttx.Drivers.Rwbuffer.Semaphores
import Nuttx.Drivers.Serial.Proof.Receive
import Nuttx.Drivers.Serial.Proof.Semaphores
import Nuttx.Drivers.Serial.Proof.Transmit
import Nuttx.Fs.Inode.Proof.Lookup
import Nuttx.Fs.Inode.Proof.Refine
import Nuttx.Libc.Fixedmath.Sqrt
import Nuttx.Libc.Misc.KbdCodec
import Nuttx.Libc.Misc.Math32
import Nuttx.Libc.Misc.SlcdCodec
import Nuttx.Libc.Net.Proof.Base64
import Nuttx.Libc.Net.Proof.Ipv4
import Nuttx.Libc.Net.Proof.RoundTrip
import Nuttx.Libc.Netdb.DnsQuery
import Nuttx.Libc.Time.Gregorian
import Nuttx.Libc.Time.Proof
import Nuttx.Mm.Circbuf.Proof.Wrap
import Nuttx.Mm.Gran.Proof.FirstFit
import Nuttx.Mm.Heap.Proof.Alignment
import Nuttx.Mm.Heap.Proof.Interleaving
import Nuttx.Mm.Heap.Proof.Mallinfo
import Nuttx.Mm.Heap.Proof.NoLeak
import Nuttx.Mm.Heap.Proof.Overflow
import Nuttx.Mm.Heap.Proof.Slivers
import Nuttx.Mm.Iob.Proof.Clone
import Nuttx.Mm.Iob.Proof.Edit
import Nuttx.Mm.Iob.Proof.Pool
import Nuttx.Net.Proof.Ipv6Walk
import Nuttx.Net.Route.Proof
import Nuttx.Net.Sixlowpan.Proof.RoundTrip
import Nuttx.Net.Tcp.Proof.Receive
import Nuttx.Net.Tcp.Proof.SendWindow
import Nuttx.Sched.Mqueue.Proof.Run
import Nuttx.Sched.Pid
import Nuttx.Sched.Tickless.Proof
