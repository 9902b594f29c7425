import BoaGateway.ByteBlocks
import BoaGateway.RequestRuns
import BoaGateway.MibTypes
import BoaGateway.MibChain
import BoaGateway.MibChainCodec
import BoaGateway.MibContent
import BoaGateway.ContentRoundTrip
import BoaGateway.DecodeSafety
import BoaGateway.ReadAtomicity
import BoaGateway.MibValue
import BoaGateway.MibTable
import BoaGateway.MibDefault
import BoaGateway.MibReserve
import BoaGateway.ConfigdState
import BoaGateway.MibHandlers
import BoaGateway.ChainHandlers
import BoaGateway.MsgProcess
import BoaGateway.LockDiscipline
import BoaGateway.BackupRestore
import BoaGateway.StringTermination
import BoaGateway.ListStore
import BoaGateway.ChainStore
import BoaGateway.ListSelection
import BoaGateway.MsgQueue
import BoaGateway.ReplyCleanup
import BoaGateway.ClientSystem
import BoaGateway.ReplyMatching
import BoaGateway.ChainAddClients
import BoaGateway.PartialCommit
import BoaGateway.ShmClients
import BoaGateway.ShmExchange
import BoaGateway.QueryReplies
import BoaGateway.Texts
import BoaGateway.BackupRecords
import BoaGateway.BoaLogin
import BoaGateway.AuthAuthorize
import BoaGateway.WebServer
import BoaGateway.PageLists
import BoaGateway.LoginLockout
import BoaGateway.Paths
import BoaGateway.Logline
import BoaGateway.TranslateUri
import BoaGateway.DocumentRoot
import BoaGateway.Feeding
import BoaGateway.ReadHeader
import BoaGateway.HeaderPieces
import BoaGateway.PostBody
import BoaGateway.Occurrences
import BoaGateway.CgiParams
import BoaGateway.FormEncoding
import BoaGateway.FormReading
import BoaGateway.MultipartReading
import BoaGateway.EscapeText
import BoaGateway.FormStorage
import BoaGateway.AttackCheck
import BoaGateway.PostSecurityFlag
import BoaGateway.SockMarkRuns
import BoaGateway.XmlAcceptance
import BoaGateway.RecordEscapes
import BoaGateway.MibText
import BoaGateway.TextBuffer
import BoaGateway.XmlSave
import BoaGateway.PartialSave
import BoaGateway.XmlSlots
import BoaGateway.XmlSlotOrder
import BoaGateway.Lzss
import BoaGateway.CurrentSetting
import BoaGateway.ClusterOptions
import BoaGateway.ClusterServer
import BoaGateway.FrameSafety
import BoaGateway.Tilings
import BoaGateway.DescCheck
import BoaGateway.MarkTypes
import BoaGateway.WlanSchedule
import BoaGateway.WlanTimers
import BoaGateway.TaskTimers
import BoaGateway.HexGroups
import BoaGateway.Netmask
import BoaGateway.Base64
import BoaGateway.XmlStrings
import BoaGateway.FieldTexts
import BoaGateway.Checksums
import BoaGateway.HtmlText
import BoaGateway.PortTables
import BoaGateway.RouteCheck
import BoaGateway.OptionOrders
import BoaGateway.LoginRemoval
import BoaGateway.PrefixRange
import BoaGateway.UrlHosts
import BoaGateway.DuidText
import BoaGateway.ClusterClient
import BoaGateway.ClusterPacking
import BoaGateway.ClusterFlood
import BoaGateway.PrefixEqual
import BoaGateway.SixrdPrefix
import BoaGateway.LinkedSlots
import BoaGateway.Callouts
import BoaGateway.Tokens
import BoaGateway.LeaseMerge
import BoaGateway.LeaseFile
import BoaGateway.LeaseHistory
import BoaGateway.PortGroups
import BoaGateway.RouteTables
import BoaGateway.RouteForms
import BoaGateway.RouteAgreement
import BoaGateway.LoadBalance
import BoaGateway.BalanceRows
import BoaGateway.InetText
import BoaGateway.S46Options
import BoaGateway.S46Walk
import BoaGateway.S46Containers
import BoaGateway.S46Delivery
import BoaGateway.ArgumentLoops
import BoaGateway.MibTool
import BoaGateway.MibToolItems
import BoaGateway.MibToolSets
import BoaGateway.MibToolRecords
import BoaGateway.MibToolRuns
import BoaGateway.PathCleaning
import BoaGateway.WhiteLists
import BoaGateway.SyslogScan
import BoaGateway.SyslogMessages
import BoaGateway.AuthFindValue
import BoaGateway.DigestParameters
import BoaGateway.LoginTexts
import BoaGateway.DoublyLinked
import BoaGateway.BlockedRequests
import BoaGateway.CsrfToken
import BoaGateway.CsrfWeaving
import BoaGateway.CsrfRuns
import BoaGateway.MainLoop
import BoaGateway.BlockHash
import BoaGateway.Sha256
import BoaGateway.Md5
import BoaGateway.DigestHash
import BoaGateway.Delivery
import BoaGateway.FileTransfer
import BoaGateway.AspPages
import BoaGateway.FilterChains
import BoaGateway.IpFilter
import BoaGateway.CrashSafety
import BoaGateway.XmlTorn
import BoaGateway.XmlBackup
import BoaGateway.CgiRelay
