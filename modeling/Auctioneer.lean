import Auctioneer.FirebaseDatabase.Balance
import Auctioneer.FirebaseDatabase.Builder
import Auctioneer.FirebaseDatabase.Comparators
import Auctioneer.FirebaseDatabase.CompoundWrite
import Auctioneer.FirebaseDatabase.Dictionary
import Auctioneer.FirebaseDatabase.DictionaryRuns
import Auctioneer.FirebaseDatabase.Enumerators
import Auctioneer.FirebaseDatabase.EventCache
import Auctioneer.FirebaseDatabase.ImmutableTree
import Auctioneer.FirebaseDatabase.Keys
import Auctioneer.FirebaseDatabase.LLRBNode
import Auctioneer.FirebaseDatabase.Node
import Auctioneer.FirebaseDatabase.Path
import Auctioneer.FirebaseDatabase.PendingWrites
import Auctioneer.FirebaseDatabase.PushId
import Auctioneer.FirebaseDatabase.Removing
import Auctioneer.FirebaseDatabase.SnapshotRoundTrip
import Auctioneer.FirebaseDatabase.SnapshotUtilities
import Auctioneer.FirebaseDatabase.SortedDictionary
import Auctioneer.FirebaseDatabase.Validation
import Auctioneer.FirebaseDatabase.WriteTree
import Auctioneer.Library.Civil
import Auctioneer.Library.Drain
import Auctioneer.Library.Layers
import Auctioneer.Library.Ledger
import Auctioneer.Library.Machine
import Auctioneer.Library.Origin
import Auctioneer.Library.Outbox
import Auctioneer.Library.Overlay
import Auctioneer.Library.SortedList
import Auctioneer.Library.Traverse
import Auctioneer.Library.TwoStep
import Auctioneer.Library.Utf16
import Auctioneer.Model.AmountField
import Auctioneer.Model.AuctionItem
import Auctioneer.Model.Client
import Auctioneer.Model.Controllers
import Auctioneer.Model.CustomImageView
import Auctioneer.Model.Database
import Auctioneer.Model.DateFormatter
import Auctioneer.Model.EchoSystem
import Auctioneer.Model.Labels
import Auctioneer.Model.SwiftDouble
import Auctioneer.Model.System
import Auctioneer.Proof.Amounts
import Auctioneer.Proof.Bids
import Auctioneer.Proof.ClientRuns
import Auctioneer.Proof.Dates
import Auctioneer.Proof.EchoRuns
import Auctioneer.Proof.Items
import Auctioneer.Proof.Provenance
import Auctioneer.Proof.Records
import Auctioneer.Proof.Rules
import Auctioneer.Proof.Screens
import Auctioneer.Proof.Step
import Auctioneer.Property.Accounts
import Auctioneer.Property.AmountFilter
import Auctioneer.Property.AnyOrder
import Auctioneer.Property.Attribution
import Auctioneer.Property.BidMonotone
import Auctioneer.Property.BidOnScreen
import Auctioneer.Property.BidPair
import Auctioneer.Property.BiddingScreen
import Auctioneer.Property.Conservation
import Auctioneer.Property.Converges
import Auctioneer.Property.CountBound
import Auctioneer.Property.Crashes
import Auctioneer.Property.Deletion
import Auctioneer.Property.Finality
import Auctioneer.Property.HeldPrice
import Auctioneer.Property.ImageViews
import Auctioneer.Property.ItemCount
import Auctioneer.Property.LawfulBids
import Auctioneer.Property.ListViews
import Auctioneer.Property.ListsInTime
import Auctioneer.Property.MinimumBid
import Auctioneer.Property.OpenUntilClosing
import Auctioneer.Property.Pictures
import Auctioneer.Property.ProfileTotals
import Auctioneer.Property.Removal
import Auctioneer.Property.Reserve
import Auctioneer.Property.Sessions
import Auctioneer.Property.ShillBids
import Auctioneer.Property.StoredDates
import Auctioneer.Property.TimeZones
import Auctioneer.Property.UniqueNames
import Auctioneer.Property.UserRecords
import Auctioneer.Property.WellFormed
import Auctioneer.Property.Winners
import Auctioneer.Property.WonCount
