import Auctioneer.Model.AuctionItem

/-!
What the screens write into the labels that show the dates of an item, and the
status of a listing. Each of these labels has a text in the storyboard, so an
assignment through `text?` takes place.
-/

namespace Auctioneer

/-- The text under the closing date and, where the screen has such a label, the
one under the opening date. -/
structure DateLabels where
  closing : String
  opened : Option String
deriving DecidableEq, Repr

variable (zone : TimeZone) (item : AuctionItem)

/-- `Cell_ClosesOn_Label`, the only date of a cell. -/
def HomeFeedViewController.dateLabels : DateLabels :=
  ⟨"Closes on, " ++ DateFormatter.string zone item.closeDate, none⟩

def HomeFeedDetailsViewController.dateLabels : DateLabels :=
  let labels : DateLabels := ⟨"DATE TIME", some "1/1/2022 12:00"⟩
  let labels := { labels with closing := DateFormatter.string zone item.closeDate }
  { labels with opened := some (DateFormatter.string zone item.openDate) }

def AuctionWonDetailsViewController.dateLabels : DateLabels :=
  let labels : DateLabels := ⟨"DATE TIME", some "1/1/2022 12:00"⟩
  let labels := { labels with opened := some (DateFormatter.string zone item.openDate) }
  { labels with closing := DateFormatter.string zone item.closeDate }

/-- Both assignments are to `ClosingDate_Label`. -/
def YourListingsDetailsViewController.dateLabels : DateLabels :=
  let labels : DateLabels := ⟨"00:00:00", some "1/1/2022 12:00"⟩
  let labels := { labels with closing := DateFormatter.string zone item.closeDate }
  { labels with closing := DateFormatter.string zone item.openDate }

/-- The screens that show dates. -/
inductive DateScreen where
  | homeFeed | homeFeedDetails | auctionWonDetails | yourListingsDetails
deriving DecidableEq, Repr

def DateScreen.labels : DateScreen → DateLabels
  | .homeFeed => HomeFeedViewController.dateLabels zone item
  | .homeFeedDetails => HomeFeedDetailsViewController.dateLabels zone item
  | .auctionWonDetails => AuctionWonDetailsViewController.dateLabels zone item
  | .yourListingsDetails => YourListingsDetailsViewController.dateLabels zone item

/-- `Cell_Status` of a row of the Listings. -/
def YourListingViewController.status : String :=
  if item.isnotClosed then "Open" else "Closed"

end Auctioneer
