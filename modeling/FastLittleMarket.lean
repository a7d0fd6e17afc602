import FastLittleMarket.Book.Conservation
import FastLittleMarket.Book.Flags
import FastLittleMarket.Book.Priority
import FastLittleMarket.Book.Cancel
import FastLittleMarket.Book.Sequence
import FastLittleMarket.Book.Client
import FastLittleMarket.Book.Commute
import FastLittleMarket.Book.Requeue
import FastLittleMarket.Book.Mirror
import FastLittleMarket.Exchange.Arrival
import FastLittleMarket.Fix.Stream
import FastLittleMarket.Fix.Framing
import FastLittleMarket.Fix.TreeMessage
import FastLittleMarket.Fix.Reference
import FastLittleMarket.Fix.Integers
import FastLittleMarket.Fix.Failures
import FastLittleMarket.Fix.Reserve
import FastLittleMarket.Fix.Fresh
import FastLittleMarket.Fix.Append
import FastLittleMarket.Fix.Truncation
import FastLittleMarket.Fix.Calls
import FastLittleMarket.Fix.Lifo
import FastLittleMarket.Fix.Limits
import FastLittleMarket.Fix.Counts
import FastLittleMarket.Fix.Offsets
import FastLittleMarket.Fix.Overflow
import FastLittleMarket.Book.Ledger
import FastLittleMarket.Book.Desk
import FastLittleMarket.Exchange.Query
import FastLittleMarket.Fix.Accessor
import FastLittleMarket.Fix.Assembly
import FastLittleMarket.Fix.Disguise
import FastLittleMarket.Fix.Times
