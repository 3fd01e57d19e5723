import CacheFs.Library.Chain
import CacheFs.Library.Climb
import CacheFs.Library.Descriptors
import CacheFs.Library.Gaps
import CacheFs.Library.Interaction
import CacheFs.Library.Layers
import CacheFs.Library.Layout
import CacheFs.Library.Linearization
import CacheFs.Library.Linked
import CacheFs.Library.Lookup
import CacheFs.Library.Members
import CacheFs.Library.Memory
import CacheFs.Library.Ownership
import CacheFs.Library.Registry
import CacheFs.Library.Ring
import CacheFs.Library.Settling
import CacheFs.Library.ShellWords
import CacheFs.Library.Transition
import CacheFs.Mutex.Agreement
import CacheFs.Mutex.AnyClients
import CacheFs.Mutex.Chains
import CacheFs.Mutex.Hash
import CacheFs.Mutex.HashServer
import CacheFs.Mutex.Leaks
import CacheFs.Mutex.Linearizable
import CacheFs.Mutex.ModifyMd
import CacheFs.Mutex.ModifyRuns
import CacheFs.Mutex.Named
import CacheFs.Mutex.OpCodes
import CacheFs.Mutex.Packets
import CacheFs.Mutex.Progress
import CacheFs.Mutex.Protocol
import CacheFs.Mutex.Refinement
import CacheFs.Mutex.Refusals
import CacheFs.Mutex.Run
import CacheFs.Mutex.Settles
import CacheFs.Mutex.Table
import CacheFs.Mutex.TableServer
import CacheFs.Mutex.Wire
import CacheFs.Namespace.BinarySearch
import CacheFs.Namespace.Cd
import CacheFs.Namespace.ChildArray
import CacheFs.Namespace.Files
import CacheFs.Namespace.GetNsNode
import CacheFs.Namespace.Ls
import CacheFs.Namespace.Mkfile
import CacheFs.Namespace.PathLookup
import CacheFs.Namespace.Rmfile
import CacheFs.Namespace.Runs
import CacheFs.Namespace.SearchPlaces
import CacheFs.Namespace.Tree
import CacheFs.Posix.Connections
import CacheFs.Posix.PosixFunc
import CacheFs.Queue.Admission
import CacheFs.Queue.Calls
import CacheFs.Queue.CatchUp
import CacheFs.Queue.Connections
import CacheFs.Queue.Databases
import CacheFs.Queue.Draining
import CacheFs.Queue.Effects
import CacheFs.Queue.Fifo
import CacheFs.Queue.IoQueue
import CacheFs.Queue.Isolation
import CacheFs.Queue.LogCorrect
import CacheFs.Queue.LogKeys
import CacheFs.Queue.OnDatabases
import CacheFs.Queue.OneReplica
import CacheFs.Queue.Overwrite
import CacheFs.Queue.Pending
import CacheFs.Queue.Replicas
import CacheFs.Queue.Requests
import CacheFs.Queue.Retry
import CacheFs.Queue.Store
import CacheFs.Queue.Termination
import CacheFs.Queue.WriteCalls
import CacheFs.Queue.WriteLog
import CacheFs.SuperNode.Answers
import CacheFs.SuperNode.Delivery
import CacheFs.SuperNode.Protocol
import CacheFs.Users.Adduser
import CacheFs.Users.AllOrNothing
import CacheFs.Users.LeastUid
import CacheFs.Users.NameCheck
import CacheFs.Users.Reading
import CacheFs.Users.Records
import CacheFs.Users.Registered
import CacheFs.Users.Uids
import CacheFs.Utility.CachePath
import CacheFs.Utility.CommandLine
import CacheFs.Utility.Numbers
import CacheFs.Utility.PipeEncoders
import CacheFs.Xml.Accepts
import CacheFs.Xml.Decoders
import CacheFs.Xml.Encode
import CacheFs.Xml.Fields
import CacheFs.Xml.Lines
import CacheFs.Xml.Redirect
import CacheFs.Xml.Replies
import CacheFs.Xml.ReplyRoundTrip
import CacheFs.Xml.RoundTrip
import CacheFs.Xml.SockMsg
