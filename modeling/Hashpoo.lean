import Hashpoo.Foundation.Transition
import Hashpoo.Foundation.History
import Hashpoo.Foundation.Accounting
import Hashpoo.Foundation.Word
import Hashpoo.Foundation.Apportion
import Hashpoo.Foundation.Chunks
import Hashpoo.Foundation.Intervals
import Hashpoo.Foundation.Records
import Hashpoo.Foundation.Loops
import Hashpoo.Foundation.Results
import Hashpoo.Server.Types
import Hashpoo.Server.Message
import Hashpoo.Server.Outgoing
import Hashpoo.Server.Contributions
import Hashpoo.Server.EpochHashes
import Hashpoo.Server.Rewards
import Hashpoo.Server.Hashpower
import Hashpoo.Server.ArrivalOrder
import Hashpoo.Server.Database
import Hashpoo.Server.Registry
import Hashpoo.Fees.DynamicFee
import Hashpoo.Fees.Price
import Hashpoo.Fees.Surcharge
import Hashpoo.Fees.Answers
import Hashpoo.Client.Message
import Hashpoo.Client.Lengths
import Hashpoo.Client.Submission
import Hashpoo.Client.Worker
import Hashpoo.Client.Mine
import Hashpoo.Client.Overlap
import Hashpoo.Client.Turbomine
import Hashpoo.Client.Cutoff
import Hashpoo.Client.Coverage
import Hashpoo.Client.Best
import Hashpoo.Mining.Shared
import Hashpoo.Mining.Submission
import Hashpoo.Mining.Missions
import Hashpoo.Mining.Clients
import Hashpoo.Mining.System
import Hashpoo.Mining.Announcement
import Hashpoo.Mining.Delivery
import Hashpoo.Mining.Conservation
import Hashpoo.Mining.NonceOwnership
import Hashpoo.Mining.Attribution
import Hashpoo.Mining.Epoch
import Hashpoo.Mining.Weights
import Hashpoo.Mining.SelfConsistency
import Hashpoo.Mining.Validity
import Hashpoo.Mining.Cleanup
import Hashpoo.Mining.Dispatch
import Hashpoo.Mining.RangeCheck
import Hashpoo.Mining.Pause
import Hashpoo.Mining.Connections
import Hashpoo.Mining.Readiness
import Hashpoo.Mining.Eviction
import Hashpoo.Mining.ProofOrder
import Hashpoo.Mining.Linearization
import Hashpoo.Mining.Provenance
import Hashpoo.Mining.Turns
import Hashpoo.Mining.Recipients
import Hashpoo.Claims.Booking
import Hashpoo.Claims.System
import Hashpoo.Claims.Completion
import Hashpoo.Claims.Payout
import Hashpoo.Claims.Payee
import Hashpoo.Claims.Balance
import Hashpoo.Claims.Queue
import Hashpoo.Claims.Request
import Hashpoo.Claims.Handling
import Hashpoo.Claims.Rotation
import Hashpoo.Ledger.Tables
import Hashpoo.Ledger.System
import Hashpoo.Ledger.Accounts
import Hashpoo.Ledger.Balance
import Hashpoo.Ledger.Challenges
import Hashpoo.Ledger.DbChallenge
import Hashpoo.Ledger.Retry
import Hashpoo.Ledger.Solvency
import Hashpoo.Admission.System
import Hashpoo.Admission.Authentication
import Hashpoo.Admission.Enrolment
import Hashpoo.Admission.Startup
import Hashpoo.Admission.Restarts
import Hashpoo.Mining.Backing
import Hashpoo.Claims.Settlement
import Hashpoo.Protocol.Treasury
import Hashpoo.Protocol.Mission
import Hashpoo.Protocol.Rounds
import Hashpoo.Protocol.Authenticity
