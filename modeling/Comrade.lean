import Comrade.Lib.Bytes
import Comrade.Lib.Run
import Comrade.Lib.Table
import Comrade.Rdv.Message
import Comrade.Rdv.Client
import Comrade.Rdv.ClientRun
import Comrade.Rdv.ClientPrev
import Comrade.Rdv.Host
import Comrade.Rdv.HostStep
import Comrade.Rdv.HostRun
import Comrade.Rdv.HostReply
import Comrade.Rdv.Mailbox
import Comrade.Lib.Scan
import Comrade.Bencode.Codec
import Comrade.Bencode.Value
import Comrade.Bencode.Canonical
import Comrade.Bencode.Find
import Comrade.Bep44.Store
import Comrade.Bep44.Ban
import Comrade.Bep44.Server
import Comrade.Bep44.Put
import Comrade.Bep44.StoreRun
import Comrade.Lib.Prefix
import Comrade.Bep44.BanWiden
import Comrade.Bep44.BanCall
import Comrade.Bep44.BanRun
import Comrade.Bep44.BanFull
import Comrade.Lib.Bucket
import Comrade.Lib.Tokens
import Comrade.Lib.Tally
import Comrade.Lib.Recent
import Comrade.Bep44.Budget
import Comrade.Lib.Nearest
import Comrade.Bep44.Evict
import Comrade.Bep44.WriteToken
import Comrade.Lib.Insert
import Comrade.Bep44.Lookup
import Comrade.Bep44.LookupRun
import Comrade.Bep44.Update
import Comrade.Lib.Best
import Comrade.Bep44.Winner
import Comrade.Bep44.Served
import Comrade.Bep44.StoreRounds
import Comrade.Lib.Word
import Comrade.Lib.Radix
import Comrade.Lib.Scanf
import Comrade.Lib.Reader
import Comrade.Sig.Seal
import Comrade.Sig.Cell
import Comrade.Sig.Ended
import Comrade.Paths.Path
import Comrade.Paths.Table
import Comrade.Paths.Rank
import Comrade.Paths.Plane
import Comrade.Paths.PlaneRun
import Comrade.Paths.TableRun
import Comrade.Paths.Probe
import Comrade.Paths.Probeplane
import Comrade.Paths.Reflect
import Comrade.Paths.Replay
import Comrade.Paths.Spent
import Comrade.Paths.Holds
import Comrade.Paths.HoldsRun
import Comrade.Paths.Settle
import Comrade.Paths.Pong
import Comrade.Paths.Edits
import Comrade.Paths.PinName
import Comrade.Paths.Stats
import Comrade.Paths.Adopt
import Comrade.Paths.Tags
import Comrade.Carrier.Statement
import Comrade.Carrier.Law
import Comrade.Carrier.KeyExchange
import Comrade.Carrier.Reframe
import Comrade.Carrier.News
import Comrade.Carrier.Liveness
import Comrade.Netstate.Model
import Comrade.Netstate.Frame
import Comrade.Netstate.Locals
import Comrade.Netstate.Conn
import Comrade.Netstate.Addrs
import Comrade.Netstate.Rows
import Comrade.Netstate.Anchor
import Comrade.Peering.Acks
import Comrade.Peering.AcksRun
import Comrade.Peering.Facts
import Comrade.Peering.FactsRun
import Comrade.Peering.Pool
import Comrade.Peering.Settle
import Comrade.Peering.SettleRun
import Comrade.Session.Model
import Comrade.Session.Offer
import Comrade.Session.Fresh
import Comrade.Session.Places
import Comrade.Session.Resume
import Comrade.Session.Admit
import Comrade.Session.Token
import Comrade.Token.Base58
import Comrade.Token.Codec
import Comrade.Candpack.Encode
import Comrade.Candpack.Decode
import Comrade.Candpack.Codec
import Comrade.Fwd.Spec
import Comrade.Fwd.Parse
import Comrade.Fwd.Bind
import Comrade.Lib.Channel
import Comrade.Lib.Lines
import Comrade.Sdp.Canon
import Comrade.Sdp.CanonRun
import Comrade.Sdp.CanonLines
import Comrade.Sdp.Canonical
import Comrade.Fwd.Bridge
import Comrade.Fwd.BridgeRun
import Comrade.Stun.Reply
import Comrade.Term.Filter
import Comrade.Term.FilterRun
import Comrade.Mview.Peers
import Comrade.Lib.Lex
import Comrade.Netmon.Fingerprint
import Comrade.Stun.Cache
import Comrade.Lib.Recency
import Comrade.Session.Served
import Comrade.Lib.Selection
import Comrade.Bep44.Referral
import Comrade.Lib.ScanPast
import Comrade.Lib.ScanPrinted
import Comrade.Sdp.Fan
import Comrade.Sdp.FanRead
import Comrade.Sdp.FanRun
import Comrade.Sdp.Fanned
import Comrade.Lib.ScanFields
import Comrade.Ui.Event
import Comrade.Lib.Records
import Comrade.Ui.Channel
import Comrade.Ui.View
import Comrade.Lib.Absorb
import Comrade.Hash.Sha1
import Comrade.Bep44.Digest
import Comrade.Lib.Fill
import Comrade.Win.Quote
import Comrade.Token.Base64
