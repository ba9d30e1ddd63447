import Auctioneer.Model.Database
import Auctioneer.Model.DateFormatter

/-!
The `AuctionItem` objects that the screens build from a snapshot of Products,
and the four `retrieveData` callbacks that build them. A force cast or a force
unwrap that fails is `none`.
-/

namespace Auctioneer

structure AuctionItem where
  productName : String
  imageUrl : String
  openedBy : String
  openDate : Date
  closeDate : Date
  startingPrice : Price
  highestBidPrice : Price
  highestBidder : String
  uniqueKey : Key
  isnotClosed : Bool

/-- `Date.isBetween(_:and:)`: the closed range between the two dates, in either
order. -/
def Date.isBetween (date date1 date2 : Date) : Bool :=
  min date1 date2 ≤ date && date ≤ max date1 date2

theorem Date.isBetween_eq_true {date date1 date2 : Date} :
    Date.isBetween date date1 date2 = true ↔
      min date1 date2 ≤ date ∧ date ≤ max date1 date2 := by
  simp [Date.isBetween]

/-- The item that a callback running at `now` on a device in `zone` makes of one
record. -/
def AuctionItem.decode (zone : TimeZone) (now : Date) (key : Key)
    (pairs : ProductRecord) : Option AuctionItem := do
  let productname ← castString (pairs .productname)
  let imageurl ← castString (pairs .imageurl)
  let openedby ← castString (pairs .openby)
  let opendate ← DateFormatter.date zone (← castString (pairs .opendate))
  let closedate ← DateFormatter.date zone (← castString (pairs .closedate))
  let startingprice ← castDouble (pairs .startingprice)
  let highestbidprice ← (pairs .highestbidprice).bind Value.described
  let highestbidder ← castString (pairs .highestbidder)
  some
    { productName := productname
      imageUrl := imageurl
      openedBy := openedby
      openDate := opendate
      closeDate := closedate
      startingPrice := startingprice
      highestBidPrice := highestbidprice
      highestBidder := highestbidder
      uniqueKey := key
      isnotClosed := Date.isBetween now opendate closedate }

/-- `AuctionItemDictionary` after the first loop of a callback: every record of
the snapshot is decoded, whatever the screen shows of it. -/
def decodeProducts (zone : TimeZone) (now : Date) (snapshot : Database) :
    Option (List AuctionItem) :=
  snapshot.products.entries.mapM fun entry => AuctionItem.decode zone now entry.1 entry.2

/-- The second loop of the callbacks that compare with `SignedIn_UserName!`,
which is unwrapped once for each item. -/
def keepFor (signedIn : Option String) (keep : String → AuctionItem → Bool)
    (items : List AuctionItem) : Option (List AuctionItem) :=
  match signedIn with
  | some userName => some (items.filter (keep userName))
  | none => if items.isEmpty then some [] else none

/-- The three screens that list products. -/
inductive ListKind where
  | homeFeed | yourListing | auctionWon
deriving DecidableEq, Repr

namespace HomeFeedViewController

def retrieveData (zone : TimeZone) (now : Date) (snapshot : Database) :
    Option (List AuctionItem) := do
  let dictionary ← decodeProducts zone now snapshot
  some (dictionary.filter fun value => value.isnotClosed)

end HomeFeedViewController

namespace YourListingViewController

def keeps (userName : String) (value : AuctionItem) : Bool :=
  value.openedBy = userName

def retrieveData (zone : TimeZone) (now : Date) (signedIn : Option String)
    (snapshot : Database) : Option (List AuctionItem) := do
  let dictionary ← decodeProducts zone now snapshot
  keepFor signedIn keeps dictionary

end YourListingViewController

namespace AuctionWonViewController

def keeps (userName : String) (value : AuctionItem) : Bool :=
  value.highestBidder = userName && !value.isnotClosed

def retrieveData (zone : TimeZone) (now : Date) (signedIn : Option String)
    (snapshot : Database) : Option (List AuctionItem) := do
  let dictionary ← decodeProducts zone now snapshot
  keepFor signedIn keeps dictionary

end AuctionWonViewController

namespace ProfileViewController

def wins (userName : String) (value : AuctionItem) : Bool :=
  value.highestBidder = userName && !value.isnotClosed

def sells (userName : String) (value : AuctionItem) : Bool :=
  value.openedBy = userName && !value.isnotClosed && value.startingPrice < value.highestBidPrice

/-- The variables `retrieveData` declares outside its callbacks, which every
later snapshot adds to. -/
structure Totals where
  earnings : Price
  spending : Price
deriving DecidableEq

/-- The Products callback: adds the items of one snapshot to the totals. -/
def retrieveData (zone : TimeZone) (now : Date) (signedIn : Option String)
    (snapshot : Database) (totals : Totals) : Option Totals := do
  let dictionary ← decodeProducts zone now snapshot
  let won ← keepFor signedIn wins dictionary
  let sold ← keepFor signedIn sells dictionary
  some
    { earnings := totals.earnings + (sold.map (·.highestBidPrice)).sum
      spending := totals.spending + (won.map (·.highestBidPrice)).sum }

end ProfileViewController

end Auctioneer
