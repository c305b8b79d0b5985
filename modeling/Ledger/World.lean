import Ledger.Api
import Ledger.Lib.Runs
import Mathlib.Logic.Relation

namespace Ledger

open Lib

/-! Any number of requests against one database. -/

/-- A request on its way through one process, with its own database session. -/
structure Party where
  job : Job
  prog : App Response
  session : Session

structure World where
  server : Server
  party : Nat → Option Party
  /-- every id that `uuid4()` has given out -/
  drawn : List Uuid

/-- What a call raises that failed on its way to the server or back. -/
inductive Fault
  | connection
  | other
  deriving DecidableEq

def Fault.exn : Fault → Exn
  | .connection => .operational none
  | .other => .other

inductive Event
  | arrive (r : Nat) (request : Request) (draws : Draws)
  /-- the server carries out the call of `r`, and `r` gets the answer -/
  | serve (r : Nat)
  /-- `lock_timeout` ends a wait -/
  | timeout (r : Nat)
  /-- the deadlock detector ends a wait that closes a cycle -/
  | deadlock (r : Nat) (cycle : List Nat)
  /-- the call of `r` raises, and the server never saw it -/
  | failBefore (r : Nat) (fault : Fault)
  /-- the call of `r` raises, and the server has carried it out -/
  | failAfter (r : Nat) (fault : Fault)
  /-- the server aborts an open transaction -/
  | kill (r : Nat)
  /-- the process dies with its request unanswered -/
  | crash (r : Nat)
  | tick (d : Nat)

def Event.actor : Event → Option Nat
  | .arrive r _ _ | .serve r | .timeout r | .deadlock r _ | .failBefore r _ | .failAfter r _
  | .kill r | .crash r => some r
  | .tick _ => none

/-- The lock a call asks for, if it asks for one. -/
def Call.resource? : Call → Option Resource
  | .insertKey row => some (.key row.key)
  | .lockAccount id => some (.account id)
  | .updateBalance id _ => some (.account id)
  | .insertAccount id _ _ => some (.account id)
  | .updateKey key _ _ _ => some (.key key)
  | _ => none

def Server.init : Server :=
  { committed := .empty, locks := fun _ => none, clock := 0, history := [] }

namespace World

def init : World := { server := .init, party := fun _ => none, drawn := [] }

/-- The party goes on with what it has become.  Its session is closed once it has answered. -/
def put (w : World) (r : Nat) (p : Party) (server : Server) : World :=
  match p.prog with
  | .call _ _ => { w with server, party := Function.update w.party r (some p) }
  | _ =>
    { w with
      server := server.release r
      party := Function.update w.party r (some { p with session := .idle }) }

def answer (w : World) (r : Nat) : Option Response :=
  (w.party r).bind fun p =>
    match p.prog with
    | .pure a => some a
    | _ => none

def Serving (w : World) (r : Nat) : Prop :=
  ∃ p c k, w.party r = some p ∧ p.prog = .call c k

def CommittedBy (w : World) (r : Nat) : Prop := ∃ c ∈ w.server.history, c.owner = r

def wants (w : World) (r : Nat) : Option Resource :=
  (w.party r).bind fun p =>
    match p.prog with
    | .call c _ => if (w.server.exec r p.job p.session c).isNone then c.resource? else none
    | _ => none

def WaitsFor (w : World) : Nat → Nat → Prop := w.server.locks.WaitsFor w.wants

instance (w : World) (r r' : Nat) : Decidable (w.WaitsFor r r') :=
  decidable_of_iff (r ≠ r' ∧ ((w.wants r).bind w.server.locks) = some r') <| by
    simp [WaitsFor, Locks.WaitsFor, Option.bind_eq_some_iff]

def call (w : World) (r : Nat)
    (reaction : (job : Job) → (session : Session) → (c : Call) →
      Option (Server × Session × Except Exn c.Reply)) : Option World :=
  match w.party r with
  | some ⟨job, .call c k, session⟩ =>
    (reaction job session c).map fun (server, session, reply) =>
      w.put r ⟨job, k reply, session⟩ server
  | _ => none

section step

variable (app : Job → App Response)

def step (w : World) : Event → Option World
  | .arrive r request draws =>
    if w.party r = none ∧ (w.drawn ++ draws.toList).Nodup then
      some ({ w with drawn := w.drawn ++ draws.toList }.put r
        ⟨⟨request, draws⟩, app ⟨request, draws⟩, .idle⟩ w.server)
    else none
  | .serve r => w.call r fun job session c => w.server.exec r job session c
  | .timeout r => w.call r fun job session c =>
    if (w.server.exec r job session c).isNone then
      some (w.server.release r, .broken, .error (.operational (some .lockNotAvailable)))
    else none
  | .deadlock r cycle => w.call r fun job session c =>
    if (w.server.exec r job session c).isNone ∧ (r :: (cycle ++ [r])).IsChain w.WaitsFor then
      some (w.server.release r, .broken, .error (.operational (some .deadlockDetected)))
    else none
  | .failBefore r fault => w.call r fun _ session _ =>
    some (w.server, session, .error fault.exn)
  | .failAfter r fault => w.call r fun job session c =>
    (w.server.exec r job session c).map fun (server, session, _) =>
      (server, session, .error fault.exn)
  | .kill r =>
    match w.party r with
    | some ⟨job, prog, .active _⟩ => some
      { w with
        server := w.server.release r
        party := Function.update w.party r (some ⟨job, prog, .broken⟩) }
    | _ => none
  | .crash r =>
    match w.party r with
    | some ⟨job, .call _ _, session⟩ => some (w.put r ⟨job, .pure .lost, session⟩ w.server)
    | _ => none
  | .tick d => some { w with server := { w.server with clock := w.server.clock + d } }

end step

end World

/-- A run of the service from the empty database. -/
abbrev Run (app : Job → App Response) := Execution (World.step app) World.init

end Ledger
