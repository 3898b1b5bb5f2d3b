import Adwarden.Lib.Transducer
import Adwarden.Tls.DohPairing
import Adwarden.Dns.Query
import Adwarden.Tls.Chunk
import Adwarden.Tls.Dot
import Adwarden.Tls.H2
import Adwarden.Tls.DohH1
import Adwarden.Lib.Pipeline
import Adwarden.Tls.DotFilter
import Adwarden.Tls.DohOrder
import Adwarden.Tls.RewriterLedger
import Adwarden.Tls.HeadEditGrammar
import Adwarden.Tls.RewriterInsert
import Adwarden.Tls.DohReorigin
import Adwarden.Tls.H2Lifecycle
import Adwarden.Tls.H2Completion
import Adwarden.Lib.Automaton
import Adwarden.Net.FlowTable
import Adwarden.Net.FlowTableLru
import Adwarden.Core.Verdicts
import Adwarden.Vpn.LiveUpdate
import Adwarden.Vpn.Cidr
import Adwarden.Vpn.TunRoutes
import Adwarden.Core.Classify
import Adwarden.Core.Forwarder
import Adwarden.Core.ForwarderStack
import Adwarden.Core.ForwarderVerdicts
import Adwarden.Core.FirewallBlob
import Adwarden.Core.EngineCache
import Adwarden.Core.Deadlines
import Adwarden.Tls.RewriterForeign
import Adwarden.Tls.RewriterAbandon
import Adwarden.Tls.DohFilter
import Adwarden.Tls.HttpTapPairs
import Adwarden.Core.AppRelay
import Adwarden.Net.Udp
import Adwarden.Core.EventCodec
import Adwarden.Dns.Answer
import Adwarden.Dns.Checked
import Adwarden.Core.SocksCodec
import Adwarden.Core.SocksChecked
import Adwarden.Core.ProxyRun
import Adwarden.Core.ProxyCap
import Adwarden.Core.HttpForwardRun
import Adwarden.Core.HttpForwardClosed
import Adwarden.Core.DohResponse
import Adwarden.Core.Accounts
import Adwarden.Tls.HeadAgree
import Adwarden.Tls.RetentionBound
import Adwarden.Tls.SniGrammar
import Adwarden.Dns.NameGrammar
import Adwarden.Tls.ChunkDecoding
import Adwarden.Tls.ChunkAccepts
import Adwarden.Tls.RequestQueue
import Adwarden.Lib.Decision
import Adwarden.Lib.Dyadic
import Adwarden.Tls.AnchorPrefix
import Adwarden.Tls.RewriterCuts
import Adwarden.Tls.LengthRewrite
import Adwarden.Tls.UpstreamBody
import Adwarden.Tls.DohSpelling
import Adwarden.Tls.H2HeaderRun
import Adwarden.Core.Base64
import Adwarden.Tls.Iso8601
import Adwarden.Tls.DohJson
import Adwarden.Data.Stats
import Adwarden.Net.Stack
import Adwarden.Lib.Drain
import Adwarden.Tls.Session
import Adwarden.Tls.Mitm
import Adwarden.Tls.MitmActs
import Adwarden.Tls.MitmRun
import Adwarden.Tls.MitmFailure
import Adwarden.Tls.MitmHttp
import Adwarden.Tls.MitmHar
import Adwarden.Tls.MitmDot
import Adwarden.Lib.JsonRead
import Adwarden.Lib.JsonDoc
import Adwarden.Tls.Har
import Adwarden.Tls.HarLossless
import Adwarden.Tls.HarExport
import Adwarden.Core.FlowNotes
import Adwarden.Core.ForwarderNotes
import Adwarden.Core.Pcap
import Adwarden.Core.Runtime
import Adwarden.Core.RuntimeControl
import Adwarden.Lib.Ledger
import Adwarden.Core.RuntimeCapture
import Adwarden.Data.Delivered
import Adwarden.Data.Accounting
