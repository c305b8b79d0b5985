import Ledger.Lib.Interaction
import Ledger.Lib.Monitor
import Ledger.Lib.Runs
import Ledger.Lib.Locks
import Ledger.Lib.Rows
import Ledger.Lib.Decimal
import Ledger.Errors
import Ledger.Schemas
import Ledger.Models
import Ledger.Database
import Ledger.Idempotency
import Ledger.Transfers
import Ledger.Accounts
import Ledger.Services
import Ledger.Api
import Ledger.World
import Ledger.Sequential
import Ledger.Stages
import Ledger.Discipline
import Ledger.InFlight
import Ledger.Steps
import Ledger.Phases
import Ledger.Invariant
import Ledger.Refinement
import Ledger.Money
import Ledger.Atomic
import Ledger.Books
import Ledger.Conservation
import Ledger.Answers
import Ledger.ExactlyOnce
import Ledger.Canonical
import Ledger.Acknowledgement
import Ledger.Failures
import Ledger.Deadlock
import Ledger.Influence
import Ledger.LostRace
import Ledger.Journal
import Ledger.Statements
import Ledger.Fingerprint
import Ledger.Wire
import Ledger.Migration
import Ledger.Decisions
import Ledger.Exactness
import Ledger.History
import Ledger.Chronology
import Ledger.Patience
import Ledger.Contention
import Ledger.Confluence
import Ledger.Lockstep
import Ledger.FastPath
import Ledger.Lib.Linear
import Ledger.Lib.Budget
import Ledger.Lib.Dict
import Ledger.Reads
import Ledger.Site
import Ledger.Linearizable
import Ledger.Calls
import Ledger.Termination
import Ledger.Waiting
import Ledger.Retries
import Ledger.Recency
import Ledger.Contract
import Ledger.Diary
import Ledger.Knowledge
import Ledger.Logs
import Ledger.Lib.Bank
import Ledger.Bank
import Ledger.Constraints
