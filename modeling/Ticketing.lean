import Ticketing.Base.Digits
import Ticketing.Base.Calendar
import Ticketing.Base.Timestamptz
import Ticketing.Base.Exec
import Ticketing.Base.Hash
import Ticketing.Base.Json
import Ticketing.Base.Keyset
import Ticketing.Base.Optimistic
import Ticketing.Base.Owners
import Ticketing.Base.Peak
import Ticketing.Base.Ranking
import Ticketing.Base.Refine
import Ticketing.Base.Span
import Ticketing.Base.Tally
import Ticketing.Base.Text
import Ticketing.Base.Traverse
import Ticketing.Seating
import Ticketing.Anchors
import Ticketing.Cuts
import Ticketing.NormalForms
import Ticketing.FreeRuns
import Ticketing.Redis
import Ticketing.ZoneRuns
import Ticketing.Database
import Ticketing.Rebuild
import Ticketing.Pipeline
import Ticketing.Steps
import Ticketing.Settlement
import Ticketing.Ledger
import Ticketing.Stock
import Ticketing.GuardedReconcile
import Ticketing.SeatOwnership
import Ticketing.GuardedRebuild
import Ticketing.SeatDrift
import Ticketing.SeatBalance
import Ticketing.DriftAlarms
import Ticketing.Reclaim
import Ticketing.Outbox
import Ticketing.ClaimExpiry
import Ticketing.MarkerExpiry
import Ticketing.OverlapRefund
import Ticketing.Submission
import Ticketing.Contention
import Ticketing.Replay
import Ticketing.Availability
import Ticketing.Admission
import Ticketing.TokenLifetime
import Ticketing.EventCache
import Ticketing.Stampede
import Ticketing.Transactions
import Ticketing.OrderHistory
import Ticketing.OpenTransactions
import Ticketing.Payments
import Ticketing.Refunds
import Ticketing.PaymentSweeps
import Ticketing.WaitingRoom
import Ticketing.AdmissionCutoff
import Ticketing.Lottery
import Ticketing.QueueStreams
import Ticketing.AdminUpdates
import Ticketing.Publishing
import Ticketing.AuditTrail
import Ticketing.RefreshTokens
import Ticketing.TokenRevocation
import Ticketing.Pii
import Ticketing.ClientAddress
import Ticketing.RateLimits
import Ticketing.LoginLockout
import Ticketing.SingleFlight
import Ticketing.OrderPages
import Ticketing.EventPatch
import Ticketing.KeyRewrap
import Ticketing.DeadLetterCount
import Ticketing.MetaCodec
import Ticketing.OrderTotals
import Ticketing.Calibration
import Ticketing.SeatLabels
import Ticketing.PartitionBounds
import Ticketing.AuditRetention
import Ticketing.BoxOffice
import Ticketing.Drain
import Ticketing.OutboxLease
import Ticketing.OrderPolling
import Ticketing.Base.Inserts
import Ticketing.SeedVenue
import Ticketing.SeatTickets
import Ticketing.Accounts
import Ticketing.Erasure
import Ticketing.BuyerRecords
import Ticketing.Breaker
import Ticketing.KeyPurge
import Ticketing.Middleware
