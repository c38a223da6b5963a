import Pptk.Lib.Mem
import Pptk.Iphdr.Hdr
import Pptk.Iphdr.Cksum
import Pptk.Lib.Gaps
import Pptk.Ipfrag.Packet
import Pptk.Ipfrag.Reass
import Pptk.Ipfrag.Rfc791
import Pptk.Ipfrag.Bitmap
import Pptk.Lib.CTree
import Pptk.Lib.PtrTree
import Pptk.Lib.RbFix
import Pptk.Rbtree.Rbtree
import Pptk.Rbtree.Correct
import Pptk.Ipfrag.RbExplicit
import Pptk.Ipfrag.Fragment
import Pptk.Ipfrag.Reassemble
import Pptk.Ipfrag.RoundTrip
import Pptk.Ipfrag.Linux
import Pptk.Ipfrag.Nomem
import Pptk.Ipfrag.Overlap
import Pptk.Lib.DList
import Pptk.Ipfrag.Blocks
import Pptk.Ipfrag.Buffer
import Pptk.Ipfrag.Rfc815
import Pptk.Ipfrag.Rb815
import Pptk.Ipfrag.Rb815.Heap
import Pptk.Ipfrag.Rb815.Insert
import Pptk.Ipfrag.Rb815.Exchange
import Pptk.Ipfrag.Rb815.Delete
import Pptk.Ipfrag.Rb815.Holes
import Pptk.Ipfrag.Rb815.Add
import Pptk.Ipfrag.Rb815.Engine
import Pptk.Ipfrag.TotalLen
import Pptk.Ipfrag.Combo
import Pptk.Lib.Order
import Pptk.Lib.SearchTree
import Pptk.Rbtree.Run
import Pptk.Lib.Avl
import Pptk.Avltree.Avltree
import Pptk.Avltree.Correct
import Pptk.Avltree.Run
import Pptk.Lib.Ones
import Pptk.Iphdr.Rfc1071
import Pptk.Iphdr.Transport
import Pptk.Iphdr.Area
import Pptk.Lib.Loop
import Pptk.Iphdr.TcpOptions
import Pptk.Iphdr.Ipv6Ext
import Pptk.Iphdr.Ipv6Chain
import Pptk.Timer.TreeTimer
import Pptk.Timer.Slot
import Pptk.Timer.Wheel
import Pptk.Timer.LinkHeap
import Pptk.Timer.LinkHeapSwap
import Pptk.Timer.LinkHeapCorrect
import Pptk.Timer.LinkWheel
import Pptk.Iphdr.Dns
import Pptk.Iphdr.DnsName
import Pptk.Iphdr.DnsSafe
import Pptk.Iphdr.DnsAnswers
import Pptk.Iphdr.DnsPut
import Pptk.Iphdr.DnsRoundTrip
import Pptk.Lib.RingBuf
import Pptk.Lib.Machine
import Pptk.Queue.Queue
import Pptk.Queue.Fifo
import Pptk.Queue.Wakeup
import Pptk.Lib.Scatter
import Pptk.Alloc.Caching
import Pptk.Alloc.Stacks
import Pptk.Alloc.RingCache
import Pptk.Lib.Bits
import Pptk.Lib.TokenBucket
import Pptk.Iphash.Iphash
import Pptk.Iphash.Network
import Pptk.Iphash.Buckets
import Pptk.Arp.Arp
import Pptk.Arp.Consistent
import Pptk.Arp.Packets
import Pptk.Lib.Words
import Pptk.Mypcap.Pcapng
import Pptk.Mypcap.Blocks
import Pptk.Mypcap.WellFormed
import Pptk.Mypcap.Swapped
import Pptk.Mypcap.Writer
import Pptk.Mypcap.RoundTrip
import Pptk.Mypcap.Classic
import Pptk.Mypcap.Joker
import Pptk.Mypcap.Convert
import Pptk.Ldp.Out
import Pptk.Ldp.Ring
import Pptk.Ldp.Switch.Learn
import Pptk.Ldp.Switch.Forward
import Pptk.Ldp.Capture
