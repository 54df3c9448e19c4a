import Unserlob.Lib.Radix
import Unserlob.Lib.Word
import Unserlob.Lib.Ascii
import Unserlob.Lib.Cursor
import Unserlob.D64.Word
import Unserlob.D64.Scan
import Unserlob.D64.Text
import Unserlob.D64.RoundTrip
import Unserlob.Lol.Types
import Unserlob.Lol.Send
import Unserlob.Lol.OrderTrip
import Unserlob.Lol.QuoteTrip
import Unserlob.Exchange.Users
import Unserlob.Lib.Run
import Unserlob.Exchange.Accounts
import Unserlob.Exchange.Conns
import Unserlob.Lib.Lines
import Unserlob.Channel.Readers
import Unserlob.Channel.Framing
import Unserlob.Channel.Overrun
import Unserlob.Channel.Isolation
import Unserlob.Channel.Hangup
import Unserlob.Channel.Datagrams
import Unserlob.Channel.Monitor
import Unserlob.D64.Columns
import Unserlob.Lol.OrderLines
import Unserlob.Lol.Local
import Unserlob.Exchange.Books
import Unserlob.Exchange.Reports
import Unserlob.D64.Kept
import Unserlob.Exchange.Hash
import Unserlob.Exchange.Routing
import Unserlob.Exchange.Instruments
import Unserlob.Lib.Loop
import Unserlob.Candle.Tables
import Unserlob.Candle.Placing
import Unserlob.Candle.Trades
import Unserlob.Lib.Sha1
import Unserlob.Lib.Frames
import Unserlob.Websock.Sha
import Unserlob.Lib.Base64
import Unserlob.Lib.Search
import Unserlob.Websock.Memmem
import Unserlob.Websock.Handshake
import Unserlob.Websock.Subscribers
import Unserlob.Websock.Upgrade
import Unserlob.Websock.Framify
import Unserlob.Lib.Transducer
import Unserlob.Bots.Callbacks
import Unserlob.Bots.Makers
import Unserlob.Bots.Takers
import Unserlob.Bots.Hearing
import Unserlob.Bots.Venue
import Unserlob.Bots.Levels
import Unserlob.Bots.Slots
import Unserlob.Lib.Decimal
import Unserlob.Lib.Rounding
import Unserlob.D64.Bid
import Unserlob.D64.Dpd
import Unserlob.D64.Quantize
import Unserlob.D64.Rounded
import Unserlob.D64.Agree
import Unserlob.D64.Nearest
import Unserlob.D64.Digits
import Unserlob.D64.Value
import Unserlob.D64.Unpacked
import Unserlob.D64.Finer
import Unserlob.D64.Printed
import Unserlob.D64.Parsed
import Unserlob.Lol.OidLines
import Unserlob.Exchange.Cancels
import Unserlob.Exchange.Statements
import Unserlob.Bots.Fills
import Unserlob.Bots.Exact
import Unserlob.Bots.Gamblers
import Unserlob.Bots.Coins
import Unserlob.Bots.Bracket
import Unserlob.Bots.Pyramid
import Unserlob.Bots.Limits
import Unserlob.Lib.Streams
import Unserlob.Lol.Segments
import Unserlob.Exchange.Floor
import Unserlob.Exchange.Quotes
import Unserlob.Exchange.House
import Unserlob.Exchange.Batch
import Unserlob.Exchange.Hall
import Unserlob.Exchange.Served
import Unserlob.Exchange.Ledger
import Unserlob.Exchange.Audit
import Unserlob.Exchange.Desk
import Unserlob.Exchange.Session
import Unserlob.Channel.Replay
import Unserlob.Lib.Json
import Unserlob.Candle.Broadcast
import Unserlob.Candle.Program
