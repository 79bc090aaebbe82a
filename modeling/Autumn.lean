import Autumn.Lib.System
import Autumn.OneTimeInit.Once
import Autumn.OneTimeInit.Hang
import Autumn.Net.Checksum
import Autumn.Net.Traceroute
import Autumn.Net.Arrival
import Autumn.Net.Route
import Autumn.Net.Echo
import Autumn.Net.EchoTCP
import Autumn.Net.RawUDP
import Autumn.Net.RawIP
import Autumn.Net.Datagram
import Autumn.Net.Stream
import Autumn.Net.RawEthernet
import Autumn.Paths.Split
import Autumn.Paths.Leftovers
import Autumn.Paths.Bounds
import Autumn.Paths.Climb
import Autumn.Kernel.RWModule
import Autumn.Kernel.RWMessage
import Autumn.Kernel.Proc
import Autumn.Kernel.PortFilter
import Autumn.Kernel.PortConfig
import Autumn.Kernel.Sysfs
import Autumn.Kernel.BlockAnswers
import Autumn.Kernel.BlockLifecycle
import Autumn.Shop
import Autumn.ShopCount
import Autumn.ShopEnd
import Autumn.Lib.CString
import Autumn.Lib.Tokens
import Autumn.Lib.Lines
import Autumn.Lib.Decimal
import Autumn.Lib.Sscanf
import Autumn.Lib.Counter
import Autumn.Lib.Critical
import Autumn.Lib.Appends
import Autumn.Lib.Loop
import Autumn.Lib.Fds
import Autumn.Lib.Resources
import Autumn.Lib.Heap
import Autumn.Lib.Ancestors
import Autumn.Lib.Post
import Autumn.Lib.Broadcast
import Autumn.Phonebook
import Autumn.PhonebookRefine
import Autumn.PhonebookStore
import Autumn.PhonebookFields
import Autumn.Editor
import Autumn.EditorOpen
import Autumn.Shell.Wiring
import Autumn.Shell.LineByLine
import Autumn.Shell.Arrays
import Autumn.Shell.Stale
import Autumn.Shell.OnHeap
import Autumn.Shell.Single
import Autumn.Shell.Ends
import Autumn.Server.WorkerPool
import Autumn.Server.Replies
import Autumn.Server.ThreadPerClient
import Autumn.Server.Preforked
import Autumn.Server.Select
import Autumn.Server.Pooled
import Autumn.Chat.History
import Autumn.Chat.Membership
import Autumn.Chat.Drain
import Autumn.Chat.Capacity
import Autumn.SharedChat.Names
import Autumn.SharedChat.Log
import Autumn.SharedChat.System
import Autumn.SharedChat.Race
import Autumn.Plugins
