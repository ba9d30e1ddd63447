import Auctioneer.Library.Machine
import Auctioneer.Model.Client

/-!
Any number of clients, the database they share, and the writes on their way to
it. A snapshot may show any state the database has been in.
-/

namespace Auctioneer

abbrev ClientId := Nat

/-- A device: its time zone, and what its clock shows at each instant. -/
structure Device where
  zone : TimeZone
  clock : Date → Date

abbrev World := ClientId → Device

/-- All devices in one zone, with one correct clock. -/
def World.sharing (zone : TimeZone) : World := fun _ => ⟨zone, id⟩

structure System where
  net : Outbox.Net ClientId Issue Database
  client : ClientId → Client
  now : Date
  nextKey : Key

inductive Label where
  | tick (now : Date)
  | deliver (sender : ClientId)
  | act (client : ClientId) (action : Action)

/-- When an event that starts at `now` ends. Only `Submit_Auction` reads the
clock twice. -/
def Action.ends (now : Date) : Action → Date
  | .submitAuction later => later
  | _ => now

namespace System

def start (now : Date) : System :=
  { net := .start .empty, client := fun _ => .launch, now, nextKey := 0 }

variable (world : World) (s : System)

/-- A snapshot is a state of the database as it was. The assumption leaves out that
an app is also shown writes of its own before they have arrived: `EchoSystem` has
them, and what rests on it is stated there. -/
def env (c : ClientId) (ends : Date) : Env :=
  { zone := (world c).zone
    now := (world c).clock s.now
    later := (world c).clock ends
    snapshots := s.net.states
    freshKey := s.nextKey }

/-- A crashed app keeps its state and reacts to nothing further. -/
def react (c : ClientId) (ends : Date) : Reaction → System
  | .crash =>
      { s with
        client := Function.update s.client c { s.client c with crashed := true }
        now := ends
        nextKey := s.nextKey + 1 }
  | .done client issues =>
      { net := s.net.issue c issues
        client := Function.update s.client c client
        now := ends
        nextKey := s.nextKey + 1 }

def step : Label → Option System
  | .tick now => if s.now ≤ now then some { s with now } else none
  | .deliver sender => (s.net.deliver sender Issue.apply).map fun net => { s with net }
  | .act c action =>
      let ends := action.ends s.now
      if s.now ≤ ends then
        ((s.client c).act (s.env world c ends) action).map (s.react c ends)
      else none

/-- Every state the database has been in. -/
abbrev states : List Database := s.net.states

abbrev db : Database := s.net.db

/-- The writes issued and not yet applied, with their senders. -/
abbrev wire : List (ClientId × Issue) := s.net.wire

end System

/-- The states of all runs of any number of freshly launched apps on an empty
database. -/
abbrev Reachable (world : World) (now : Date) : System → Prop :=
  Machine.Reachable (System.step world) (System.start now)

/-- The states of the runs whose every step meets a side condition. -/
abbrev ReachesUnder (world : World) (ok : System → Label → Prop) (now : Date) : System → Prop :=
  Machine.Reaches (System.step world) ok (System.start now)

/-! Beginnings of runs, to which the runs of later modules add. -/

namespace Scenario

/-- All devices show one clock, eight hours ahead of Greenwich. -/
def world : World := World.sharing (TimeZone.fixed 480)

/-- 24 January 2022, 3:00 PM on those devices. -/
def opening : Date := 1643007600

def closing : Date := opening + 3600

/-- Sue, Amy and Bob sign up, and sign in on the clients 0, 1 and 2. -/
def signedIn : List Label :=
  [.act 0 (.signUp 0 "sue" "p"), .deliver 0, .act 1 (.signUp 1 "amy" "q"), .deliver 1,
    .act 2 (.signUp 2 "bob" "r"), .deliver 2, .act 0 (.login 3 "sue" "p"),
    .act 1 (.login 3 "amy" "q"), .act 2 (.login 3 "bob" "r")]

/-- Sue opens an auction of a lamp, under the key 10, that starts at 10. -/
def lampOpened : List Label :=
  signedIn ++ [.act 0 (.selectTab .openNewAuction),
    .act 0 (.imagePicked (some "lamp.jpg") (some "lamp.jpg")),
    .act 0 (.uploadEnded 0 (some "https://host/lamp.jpg")),
    .act 0 (.fillForm "Lamp" "10" closing), .act 0 (.submitAuction opening), .deliver 0]

def lamp : Key := 10

/-- And Bob one of a desk, under the key 15, that starts at 50. -/
def deskOpened : List Label :=
  lampOpened ++ [.act 2 (.selectTab .openNewAuction),
    .act 2 (.imagePicked (some "desk.jpg") (some "desk.jpg")),
    .act 2 (.uploadEnded 0 (some "https://host/desk.jpg")),
    .act 2 (.fillForm "Desk" "50" closing), .act 2 (.submitAuction opening), .deliver 2]

def desk : Key := 15

/-- A client opens the details of the first item in its feed. -/
def openFirst (c : ClientId) (snapshot : Nat) : List Label :=
  [.act c (.productsEvent 0 snapshot), .act c (.selectRow 0), .act c (.detailsEvent 0 snapshot)]

/-- Amy bids on the lamp, and the bid arrives. -/
def lampBid (amount : String) : List Label :=
  lampOpened ++ openFirst 1 4 ++ [.act 1 (.bidSubmit amount), .deliver 1, .deliver 1]

/-- A snapshot that shows the lamp, under the key 0, with a bid of Amy. -/
def lampSold : Database :=
  (HomeFeedDetailsViewController.bidderIssue 0 20 "amy").apply
    ((HomeFeedDetailsViewController.priceIssue 0 20 "amy").apply
      ((Write.setProduct 0 (OpenNewAuctionViewController.productRecord "Lamp"
        "https://host/lamp.jpg" "sue" "24 Jan 2022, 3:00 PM" "24 Jan 2022, 4:00 PM" 10)).apply
        .empty))

/-- A snapshot that shows Amy, too. -/
def lampAndAmy : Database :=
  (Write.setUser 1 (SignUpViewController.userRecord "amy" "q")).apply lampSold

/-- One hour after the closing date of the lamp. -/
def closed : Date := closing + 3600

end Scenario

end Auctioneer
