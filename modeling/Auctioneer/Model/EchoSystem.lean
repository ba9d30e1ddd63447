import Auctioneer.Library.Overlay
import Auctioneer.Model.System

/-!
The system whose apps read their own writes. `FRepo` raises the events of a
write before it sends it, so that a snapshot may show writes of the app's own
that the database has not applied. `System` leaves them out; its runs are those
of this system in which every snapshot is a bare state.
-/

namespace Auctioneer

structure EchoSystem where
  system : System
  /-- All that each app has written so far, the first write first. -/
  sent : ClientId → List Issue

namespace EchoSystem

def start (now : Date) : EchoSystem := ⟨.start now, fun _ => []⟩

variable (world : World) (e : EchoSystem)

/-- What an app may be shown: a state the database has been in, with the writes
on top that the app has not seen acknowledged. How far the acknowledgements have
come is left open. -/
def views (c : ClientId) : List (Outbox.View Issue Database) :=
  Outbox.views e.system.states (e.sent c)

def snapshots (c : ClientId) : List Database := (e.views c).map (·.shown Issue.apply)

def env (c : ClientId) (ends : Date) : Env :=
  { e.system.env world c ends with snapshots := e.snapshots c }

def react (c : ClientId) (ends : Date) : Reaction → EchoSystem
  | .crash => { e with system := e.system.react c ends .crash }
  | .done client issues =>
      { system := e.system.react c ends (.done client issues)
        sent := Function.update e.sent c (e.sent c ++ issues) }

def step : Label → Option EchoSystem
  | .act c action =>
      let ends := action.ends e.system.now
      if e.system.now ≤ ends then
        ((e.system.client c).act (e.env world c ends) action).map (e.react c ends)
      else none
  | l => (e.system.step world l).map fun system => { e with system }

/-- The present database with the writes on top that the app has on their way. -/
def present (c : ClientId) : Outbox.View Issue Database :=
  ⟨e.system.db, e.system.net.outbox c⟩

/-- The states of all runs of any number of freshly launched apps. -/
abbrev Reachable (world : World) (now : Date) : EchoSystem → Prop :=
  Machine.Reachable (step world) (start now)

abbrev ReachesUnder (world : World) (ok : EchoSystem → Label → Prop) (now : Date) :
    EchoSystem → Prop :=
  Machine.Reaches (step world) ok (start now)

end EchoSystem

end Auctioneer
