import GemDroid.Chr.CharPipe
import GemDroid.Containers.PointerSet
import GemDroid.Containers.StringOrder
import GemDroid.Containers.StringVector
import GemDroid.Goldfish.Events
import GemDroid.Goldfish.Interrupt
import GemDroid.Goldfish.Mmc
import GemDroid.Goldfish.PipeSnapshot
import GemDroid.Goldfish.TimerSnapshot
import GemDroid.Input.Multitouch
import GemDroid.Json.Lexemes
import GemDroid.Mem.Regions
import GemDroid.Net.Shaper
import GemDroid.Proxy.Chunked
import GemDroid.Qcow2.ClusterRun
import GemDroid.Qcow2.ExtHeader
import GemDroid.Qcow2.L2Cache
import GemDroid.Qemud.Send
import GemDroid.Qemud.Services
import GemDroid.Ram.Transfer
import GemDroid.Savevm.FileReader
import GemDroid.Skin.RunLists
import GemDroid.Slirp.IfRuns
import GemDroid.Slirp.MbufCat
import GemDroid.Slirp.ReassRuns
import GemDroid.Sms.DialNumber
import GemDroid.Sms.HeaderWalk
import GemDroid.Sms.ReceiverRuns
import GemDroid.Sms.Rope
import GemDroid.Sms.Split
import GemDroid.Tb.Cache
import GemDroid.Tcg.LivenessBits
import GemDroid.Telephony.Calls
import GemDroid.Timer.Deadline
import GemDroid.Trace.Tracker
import GemDroid.Utils.CommandLine
import GemDroid.Utils.IntMap
import GemDroid.Utils.RefList
import GemDroid.Utils.RefSet
