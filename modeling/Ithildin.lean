import Ithildin.Lib.Tokens
import Ithildin.Lib.Lines
import Ithildin.Lib.Run
import Ithildin.Lib.Replica
import Ithildin.Lib.Cursor
import Ithildin.Lib.Buckets
import Ithildin.Lib.Layout
import Ithildin.Lib.Agenda
import Ithildin.Lib.Places
import Ithildin.Lib.Ledger
import Ithildin.Lib.Forest
import Ithildin.CString
import Ithildin.Match
import Ithildin.Numbers
import Ithildin.Protocol.Parse
import Ithildin.Protocol.ParseRfc
import Ithildin.Protocol.Input
import Ithildin.Protocol.Framing
import Ithildin.Server.Closed
import Ithildin.Server.Linkage
import Ithildin.Event.Reentry
import Ithildin.Module.MdextLayout
import Ithildin.Table.Contents
import Ithildin.Timer.Exec
import Ithildin.Timer.Owners
import Ithildin.Dns.Bounds
import Ithildin.Dns.Answers
import Ithildin.Dns.Limits
import Ithildin.Dns.Callbacks
import Ithildin.Acl.Decision
import Ithildin.Acl.Displaced
import Ithildin.Acl.ForceCheck
import Ithildin.Channel.Faithful
import Ithildin.Channel.KeyLink
import Ithildin.Channel.Linked
import Ithildin.Channel.Residue
import Ithildin.Channel.BanCache
import Ithildin.Client.Collision
import Ithildin.Connection.Stage2
import Ithildin.Connection.Hosts
import Ithildin.Services.Identify
import Ithildin.Services.Expiry
import Ithildin.Services.References
import Ithildin.Services.RoundTrip
import Ithildin.Client.Unknown
import Ithildin.Send.Stream
import Ithildin.Connection.Classes
import Ithildin.Connection.Throttle
import Ithildin.Send.Fanout
import Ithildin.Server.Burst
import Ithildin.Server.Hops
import Ithildin.Send.Messages
import Ithildin.Client.SignOff
import Ithildin.Send.Masks
import Ithildin.Client.Privilege
import Ithildin.Client.PrivilegeSearch
import Ithildin.Conf.Render
import Ithildin.Module.Requests
import Ithildin.Channel.Topic
import Ithildin.Client.Notify
import Ithildin.Channel.Invite
import Ithildin.Send.Members
import Ithildin.Acl.Prereg
import Ithildin.Table.KeyHash
import Ithildin.Channel.JoinKey
import Ithildin.Channel.BanList
import Ithildin.CaseFolding
import Ithildin.Channel.Sjoin
import Ithildin.Channel.ModeBuffers
import Ithildin.Channel.Sync
import Ithildin.HostmatchRun
import Ithildin.Alternatives
import Ithildin.Cidr
import Ithildin.BaseN
import Ithildin.Printf
import Ithildin.Protocol.Output
import Ithildin.Client.ModeString
import Ithildin.Dns.Query
import Ithildin.Client.Austhex
import Ithildin.Command.Hooks
import Ithildin.Command.Folding
import Ithildin.Client.Isupport
import Ithildin.Channel.Strip
import Ithildin.TimeText
import Ithildin.Client.Charmaps
import Ithildin.Conf.IncludeFiles
import Ithildin.Conf.Find
import Ithildin.Command.Reduce
import Ithildin.Digest
import Ithildin.Socket.Accounts
import Ithildin.Socket.Polling
import Ithildin.Fmtcheck
import Ithildin.Command.Who
import Ithildin.Ident.Requests
import Ithildin.Command.NameLists
import Ithildin.Command.Silence
