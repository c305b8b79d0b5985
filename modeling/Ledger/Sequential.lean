import Ledger.World

namespace Ledger

open Lib

def alone (clock : Timestamp) (s : Tables × Session) (c : Call) :
    (Tables × Session) × Except Exn c.Reply :=
  match s.1.effect clock s.2 c with
  | .stay reply => (s, reply)
  | .done tx reply => ((s.1, .active tx), reply)
  | .locked _ tx reply => ((s.1, .active tx), .ok reply)
  | .failed e => ((s.1, .broken), .error e)
  | .committed tx reply => ((s.1.view tx, .idle), .ok reply)
  | .rolledBack reply => ((s.1, .idle), .ok reply)

/-- The tables a request leaves behind, and its answer. -/
def sequential (app : Job → App Response) (job : Job) (clock : Timestamp) (t : Tables) :
    Tables × Except Exn Response :=
  let (s, answer) := (app job).drive (alone clock) (t, .idle)
  (s.1, answer)

/-- A call that does not have to wait is answered as if nobody else were there. -/
theorem alone_of_exec {s s' : Server} {me : Nat} {job : Job} {session session' : Session}
    {c : Call} {reply : Except Exn c.Reply}
    (h : s.exec me job session c = some (s', session', reply)) :
    alone s.clock (s.committed, session) c = ((s'.committed, session'), reply) := by
  unfold Server.exec at h
  unfold alone
  generalize s.committed.effect s.clock session c = effect at h ⊢
  cases effect with
  | locked x tx reply =>
    obtain ⟨locks, -, h⟩ := Option.map_eq_some_iff.mp h
    cases h
    rfl
  | stay reply => cases h; rfl
  | done tx reply => cases h; rfl
  | failed e => cases h; rfl
  | committed tx reply => cases h; rfl
  | rolledBack reply => cases h; rfl

theorem alone_active (clock clock' : Timestamp) (t : Tables) (tx : Tx) (c : Call) :
    alone clock (t, .active tx) c = alone clock' (t, .active tx) c := by
  cases c <;> rfl

end Ledger
