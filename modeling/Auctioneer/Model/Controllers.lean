import Auctioneer.Model.AuctionItem

/-!
The button actions and callbacks of the screens, as functions of what they
read. A trap (a force unwrap of nil, a failed force cast, a value that
`setValue` throws on) is `none`. Texts stand for their normal forms, on which
the equality of Swift, canonical equivalence, is equality.
-/

namespace Auctioneer

structure Alert where
  title : String
  message : String
deriving DecidableEq, Repr

/-- `AuctionItem` is a class: the screens share its instances by reference. -/
abbrev Ref := Nat
abbrev Heap := List AuctionItem

/-- `SelectedToViewAuctionItem?.highestBidPrice = price` -/
def Heap.setPrice (heap : Heap) (selected : Option Ref) (price : Price) : Heap :=
  match selected with
  | none => heap
  | some ref => heap.modify ref fun item => { item with highestBidPrice := price }

namespace HomeFeedDetailsViewController

/-- A pushed screen: the item its `viewDidLoad` captured, the product its
observer is registered on, and `minimumBid`. -/
structure Screen where
  thisAuctionItem : Ref
  product : Key
  minimumBid : Option Price
deriving DecidableEq

/-- The observer: `snapshot` is the product's record, or `none` when there is
no such product. The price goes to whatever item is selected now; `minimumBid`
is computed from the captured item afterwards. -/
def livePriceUpdate (snapshot : Option ProductRecord) (selected : Option Ref)
    (heap : Heap) (screen : Screen) : Option (Heap × Screen) := do
  let value ← snapshot
  let _ ← castString (value .highestbidder)
  let price ← castDouble (value .highestbidprice)
  let heap := heap.setPrice selected price
  let thisAuctionItem ← heap[screen.thisAuctionItem]?
  let minimumBid :=
    if thisAuctionItem.highestBidPrice < thisAuctionItem.startingPrice then
      thisAuctionItem.startingPrice
    else thisAuctionItem.highestBidPrice
  some (heap, { screen with minimumBid := some minimumBid })

inductive BidOutcome where
  | alert (alert : Alert)
  | bid (amount : Price)
deriving DecidableEq

/-- `setValue` of an amount: infinite numbers are not JSON and throw. -/
def place : Double → Option BidOutcome
  | .finite amount => some (.bid amount)
  | _ => none

/-- The two thresholds of `Bid_Submit`. -/
def passesPriceTest (item : AuctionItem) (amount : Double) : Bool :=
  if item.highestBidPrice < item.startingPrice then
    Double.le (.finite item.startingPrice) amount
  else Double.lt (.finite item.highestBidPrice) amount

def openedByBidder : Alert :=
  ⟨"Bid Failed", "You cannot bid on a item that you opened"⟩

def closed : Alert := ⟨"Bid Failed", "This item has been closed"⟩

def belowMinimum (minimumBid : Price) : Alert :=
  ⟨"Invalid Amount", "Please enter a valid bid amount, the minimum bid amount for this item is $" ++
    twoDecimals minimumBid⟩

def notAbove (minimumBid : Price) : Alert :=
  ⟨"Invalid Amount", "Please enter a valid bid amount, your bid has to be above $" ++
    twoDecimals minimumBid⟩

/-- The alert about an amount unwraps `minimumBid!`. -/
def refuse (alert : Price → Alert) (minimumBid : Option Price) : Option BidOutcome :=
  minimumBid.map fun price => .alert (alert price)

def bidSubmit (selected : Option AuctionItem) (signedIn : Option String)
    (minimumBid : Option Price) (text : String) (now : Date) : Option BidOutcome := do
  let thisAuctionItem ← selected
  let userName ← signedIn
  if thisAuctionItem.openedBy = userName then some (.alert openedByBidder)
  else if text = "" then refuse belowMinimum minimumBid
  else if Date.isBetween now thisAuctionItem.openDate thisAuctionItem.closeDate = false then
    some (.alert closed)
  else do
    let amount ← Double.ofText text
    if passesPriceTest thisAuctionItem amount then place amount
    else if thisAuctionItem.highestBidPrice < thisAuctionItem.startingPrice then
      refuse belowMinimum minimumBid
    else refuse notAbove minimumBid

/-- Every force unwrap that a press evaluates succeeds: of the selected item, of
the user, of the amount, and of `minimumBid!` in the alerts about it. -/
def unwraps (selected : Option AuctionItem) (signedIn : Option String)
    (minimumBid : Option Price) (text : String) (now : Date) : Bool :=
  match selected, signedIn with
  | some thisAuctionItem, some userName =>
      if thisAuctionItem.openedBy = userName then true
      else if text = "" then minimumBid.isSome
      else if Date.isBetween now thisAuctionItem.openDate thisAuctionItem.closeDate = false then
        true
      else
        match Double.ofText text with
        | none => false
        | some amount => passesPriceTest thisAuctionItem amount || minimumBid.isSome
  | _, _ => false

/-- A press traps when it unwraps `nil`, and when `setValue` throws on the amount. -/
theorem bidSubmit_eq_none_iff {selected : Option AuctionItem} {signedIn : Option String}
    {minimumBid : Option Price} {text : String} {now : Date} :
    bidSubmit selected signedIn minimumBid text now = none ↔
      unwraps selected signedIn minimumBid text now = false ∨
        ∃ item userName amount, selected = some item ∧ signedIn = some userName ∧
          item.openedBy ≠ userName ∧ text ≠ "" ∧
          Date.isBetween now item.openDate item.closeDate = true ∧
          Double.ofText text = some amount ∧ passesPriceTest item amount = true ∧
          place amount = none := by
  rcases selected with _ | item
  · simp [bidSubmit, unwraps]
  rcases signedIn with _ | userName
  · simp [bidSubmit, unwraps]
  by_cases hown : item.openedBy = userName
  · simp [bidSubmit, unwraps, hown]
  by_cases htext : text = ""
  · cases minimumBid <;> simp [bidSubmit, unwraps, hown, htext, refuse]
  cases hopen : Date.isBetween now item.openDate item.closeDate with
  | false => simp [bidSubmit, unwraps, hown, htext, hopen]
  | true =>
      cases hamount : Double.ofText text with
      | none => simp [bidSubmit, unwraps, hown, htext, hopen, hamount]
      | some amount =>
          cases htest : passesPriceTest item amount with
          | true => simp [bidSubmit, unwraps, hown, htext, hopen, hamount, htest]
          | false =>
              by_cases hbelow : item.highestBidPrice < item.startingPrice <;>
                cases minimumBid <;>
                simp [bidSubmit, unwraps, hown, htext, hopen, hamount, htest, hbelow, refuse]

def priceIssue (key : Key) (amount : Price) (bidder : String) : Issue :=
  ⟨.setProductField key .highestbidprice (.number amount), .bidSubmit key amount bidder⟩

def bidderIssue (key : Key) (amount : Price) (bidder : String) : Issue :=
  ⟨.setProductField key .highestbidder (.string bidder), .bidSubmit key amount bidder⟩

/-- The two writes of an accepted bid, in the order issued. -/
def bidIssues (key : Key) (amount : Price) (bidder : String) : List Issue :=
  [priceIssue key amount bidder, bidderIssue key amount bidder]

theorem mem_bidIssues {issue : Issue} {key : Key} {amount : Price} {bidder : String} :
    issue ∈ bidIssues key amount bidder ↔
      issue = priceIssue key amount bidder ∨ issue = bidderIssue key amount bidder := by
  simp [bidIssues]

theorem refuse_ne_bid (alert : Price → Alert) (minimumBid : Option Price) (amount : Price) :
    refuse alert minimumBid ≠ some (.bid amount) := by
  cases minimumBid <;> simp [refuse]

theorem place_bid {typed : Double} {amount : Price} (h : place typed = some (.bid amount)) :
    typed = .finite amount := by
  cases typed with
  | finite value => simpa [place] using h
  | infinity _ => simp [place] at h
  | nan => simp [place] at h

/-- What an accepted bid went through. -/
theorem bidSubmit_bid {selected : Option AuctionItem} {signedIn : Option String}
    {minimumBid : Option Price} {text : String} {now : Date} {amount : Price}
    (h : bidSubmit selected signedIn minimumBid text now = some (.bid amount)) :
    ∃ item userName, selected = some item ∧ signedIn = some userName ∧
      item.openedBy ≠ userName ∧
      Date.isBetween now item.openDate item.closeDate = true ∧
      Double.ofText text = some (.finite amount) ∧
      passesPriceTest item (.finite amount) = true := by
  simp only [bidSubmit, Option.bind_eq_bind, Option.bind_eq_some_iff] at h
  obtain ⟨item, hitem, userName, huser, h⟩ := h
  refine ⟨item, userName, hitem, huser, ?_⟩
  by_cases hown : item.openedBy = userName
  · simp [hown] at h
  by_cases htext : text = ""
  · rw [if_neg hown, if_pos htext] at h
    exact absurd h (refuse_ne_bid _ _ _)
  by_cases hopen : Date.isBetween now item.openDate item.closeDate = false
  · simp [hown, htext, hopen] at h
  rw [if_neg hown, if_neg htext, if_neg hopen] at h
  obtain ⟨typed, htyped, h⟩ := Option.bind_eq_some_iff.mp h
  split at h
  · next htest =>
    obtain rfl := place_bid h
    exact ⟨hown, by simpa using hopen, htyped, htest⟩
  · split at h
    · exact absurd h (refuse_ne_bid _ _ _)
    · exact absurd h (refuse_ne_bid _ _ _)

theorem refuse_ne_closed {alert : Price → Alert} (halert : ∀ price, alert price ≠ closed)
    (minimumBid : Option Price) : refuse alert minimumBid ≠ some (.alert closed) := by
  cases minimumBid <;> simp [refuse, halert]

theorem place_ne_alert (typed : Double) (alert : Alert) : place typed ≠ some (.alert alert) := by
  cases typed <;> simp [place]

/-- A bid is refused as closed only outside the dates of the item. -/
theorem bidSubmit_closed {item : AuctionItem} {signedIn : Option String}
    {minimumBid : Option Price} {text : String} {now : Date}
    (h : bidSubmit (some item) signedIn minimumBid text now = some (.alert closed)) :
    Date.isBetween now item.openDate item.closeDate = false := by
  have hbelow : ∀ price, belowMinimum price ≠ closed := by simp [belowMinimum, closed]
  have habove : ∀ price, notAbove price ≠ closed := by simp [notAbove, closed]
  have hown : openedByBidder ≠ closed := by decide
  simp only [bidSubmit, Option.bind_eq_bind, Option.bind_some, Option.bind_eq_some_iff] at h
  obtain ⟨userName, _, h⟩ := h
  split at h
  · simp [hown] at h
  split at h
  · exact absurd h (refuse_ne_closed hbelow _)
  split at h
  · next hopen => exact hopen
  obtain ⟨typed, _, h⟩ := Option.bind_eq_some_iff.mp h
  split at h
  · exact absurd h (place_ne_alert _ _)
  split at h
  · exact absurd h (refuse_ne_closed hbelow _)
  · exact absurd h (refuse_ne_closed habove _)

end HomeFeedDetailsViewController

namespace YourListingsDetailsViewController

/-- The one-shot read of `viewDidLoad`. -/
def priceRead (snapshot : Option ProductRecord) (selected : Option Ref)
    (heap : Heap) : Option Heap := do
  let value ← snapshot
  let _ ← castString (value .highestbidder)
  let price ← castDouble (value .highestbidprice)
  some (heap.setPrice selected price)

/-- `Delete_Listing` on the screen built for the product `shown`: the product
removed is that of the item selected at the press. -/
def deleteListing (selected : Option AuctionItem) (shown : Key) (author : Option String) :
    Option Issue :=
  selected.map fun item => ⟨.removeProduct item.uniqueKey, .deleteListing shown author⟩

end YourListingsDetailsViewController

namespace OpenNewAuctionViewController

/-- The form. `uploads` are the files whose upload, or whose download URL, is
still outstanding. -/
structure Form where
  uploadDisplay : Option String
  itemName : String
  startingPrice : String
  closingDate : Date
  returnedImageUrl : String
  didUploadImage : Bool
  uploads : List String

def Form.fresh (now : Date) : Form :=
  ⟨none, "", "", now, "", false, []⟩

def viewDidAppear (now : Date) (form : Form) : Form :=
  { form with uploadDisplay := none, closingDate := now, itemName := "", startingPrice := "" }

/-- `didFinishPickingMediaWithInfo`, with the image and the file URL that the
picker supplies. -/
def imagePicked (image file : Option String) (form : Form) : Form :=
  { form with
    uploadDisplay := if image.isSome then image else form.uploadDisplay
    uploads := form.uploads ++ file.toList }

/-- An upload ends: with its download URL, or with an error. -/
def uploadEnded (upload : Nat) (url : Option String) (form : Form) : Form :=
  match url with
  | none => { form with uploads := form.uploads.eraseIdx upload }
  | some url =>
      { form with
        uploads := form.uploads.eraseIdx upload
        didUploadImage := true
        returnedImageUrl := url }

def productRecord (productname imageurl openby opendate closedate : String)
    (startingprice : Price) : ProductRecord
  | .productname => some (.string productname)
  | .imageurl => some (.string imageurl)
  | .openby => some (.string openby)
  | .opendate => some (.string opendate)
  | .closedate => some (.string closedate)
  | .startingprice => some (.number startingprice)
  | .highestbidprice => some (.number 0)
  | .highestbidder => some (.string "-")

inductive AuctionOutcome where
  | alert (alert : Alert)
  | create (record : ProductRecord)

def missing (message : String) : AuctionOutcome :=
  .alert ⟨"Missing/Invalid Product Information", message⟩

/-- The clock is read twice: at `now` by the check of the closing date, and at
`later` for `opendate`. -/
def submitAuction (zone : TimeZone) (form : Form) (signedIn : Option String)
    (now later : Date) : Option AuctionOutcome :=
  if form.didUploadImage = false then
    some (missing "Please select an image for the item you are auctioning")
  else if form.itemName = "" then
    some (missing "Please give a name for the item you are auctioning")
  else if form.startingPrice = "" then
    some (missing "Please give a starting price for the item you are auctioning")
  else if form.closingDate < now then
    some (missing "Please give a valid closing time, your closing time has passed")
  else do
    let userName ← signedIn
    let startingPrice ← Double.ofText form.startingPrice
    match startingPrice with
    | .finite price =>
        some (.create (productRecord form.itemName form.returnedImageUrl userName
          (DateFormatter.string zone later) (DateFormatter.string zone form.closingDate) price))
    | _ => none

/-- The record of an accepted auction. -/
theorem submitAuction_create {zone : TimeZone} {form : Form} {signedIn : Option String}
    {now later : Date} {record : ProductRecord}
    (h : submitAuction zone form signedIn now later = some (.create record)) :
    ∃ userName price, signedIn = some userName ∧ now ≤ form.closingDate ∧
      record = productRecord form.itemName form.returnedImageUrl userName
        (DateFormatter.string zone later) (DateFormatter.string zone form.closingDate) price := by
  unfold submitAuction at h
  split_ifs at h with himage hname hprice hclosing
  iterate 4 simp [missing] at h
  simp only [Option.bind_eq_bind, Option.bind_eq_some_iff] at h
  obtain ⟨userName, huser, typed, _, h⟩ := h
  cases typed with
  | finite price =>
      simp only [Option.some.injEq, AuctionOutcome.create.injEq] at h
      exact ⟨userName, price, huser, not_lt.mp hclosing, h.symm⟩
  | infinity _ => simp at h
  | nan => simp at h

/-- A complete form is accepted. -/
theorem submitAuction_eq_create {zone : TimeZone} {form : Form} {userName : String}
    {now later : Date} {price : Price} (himage : form.didUploadImage = true)
    (hname : form.itemName ≠ "") (hstarting : form.startingPrice ≠ "")
    (hclosing : now ≤ form.closingDate)
    (hprice : Double.ofText form.startingPrice = some (.finite price)) :
    submitAuction zone form (some userName) now later =
      some (.create (productRecord form.itemName form.returnedImageUrl userName
        (DateFormatter.string zone later) (DateFormatter.string zone form.closingDate) price)) := by
  simp [submitAuction, himage, hname, hstarting, not_lt.mpr hclosing, hprice]

/-- An accepted auction has an uploaded image. -/
theorem didUploadImage_of_create {zone : TimeZone} {form : Form} {signedIn : Option String}
    {now later : Date} {record : ProductRecord}
    (h : submitAuction zone form signedIn now later = some (.create record)) :
    form.didUploadImage = true := by
  by_contra himage
  simp [submitAuction, missing, Bool.eq_false_iff.mpr himage] at h

end OpenNewAuctionViewController

/-- The `Username` of every record of a Users snapshot, each force cast to a
string. -/
def usernames (snapshot : Database) : Option (List String) :=
  snapshot.users.entries.mapM fun pairs => castString (pairs.2 .Username)

namespace SignUpViewController

def missingUsername : Alert :=
  ⟨"Missing Username", "The username field is empty, please make sure that the username and " ++
    "password are filled."⟩

def missingPassword : Alert :=
  ⟨"Missing Password", "The username field is empty, please make sure that the username and " ++
    "password are filled."⟩

def signupFailed : Alert :=
  ⟨"Signup Failed", "The name you have entereted already exist, Please enter another name."⟩

def success : Alert :=
  ⟨"Success", "Your account has been created! Login now to start using Auctioneer!"⟩

def userRecord (username password : String) : UserRecord
  | .Username => some (.string username)
  | .Password => some (.string password)
  | .ItemsAuctioned => some (.number 0)
  | .AuctionsWon => some (.number 0)
  | .ProfileImage => some (.string "")

structure Outcome where
  alerts : List Alert
  record : Option UserRecord

/-- `signUpButton` with the Users snapshot that its read delivers. The two
empty-field checks only show an alert. -/
def signUpButton (snapshot : Database) (username password : String) : Option Outcome := do
  let names ← usernames snapshot
  let taken := names.filter (· = username)
  some
    { alerts :=
        (if username = "" then [missingUsername] else []) ++
        (if password = "" then [missingPassword] else []) ++
        taken.map (fun _ => signupFailed) ++ (if taken = [] then [success] else [])
      record := if taken = [] then some (userRecord username password) else none }

/-- A sign-up adds a record when no name of the snapshot is the new one. -/
theorem record_of_signUpButton {snapshot : Database} {username password : String}
    {outcome : Outcome} (h : signUpButton snapshot username password = some outcome) :
    outcome.record = none ∨ outcome.record = some (userRecord username password) ∧
      ∃ names, usernames snapshot = some names ∧ username ∉ names := by
  simp only [signUpButton, Option.bind_eq_bind, Option.bind_eq_some_iff,
    Option.some.injEq] at h
  obtain ⟨names, hnames, rfl⟩ := h
  by_cases htaken : names.filter (· = username) = []
  · refine .inr ⟨if_pos htaken, names, hnames, ?_⟩
    intro hmem
    exact List.filter_eq_nil_iff.mp htaken username hmem (by simp)
  · exact .inl (if_neg htaken)

end SignUpViewController

namespace LoginViewController

def loginFailed : Alert :=
  ⟨"Login Failed", "The credentials you've enter to login is incorrect or does not exist, " ++
    "please try again or sign up an account."⟩

/-- `SignedIn_UserKey` and `SignedIn_UserName`, how often the main screen was
presented, and the alerts shown. -/
structure Outcome where
  session : Option (Key × String)
  presented : Nat
  alerts : List Alert

/-- The password is cast only when the name matches. -/
def authenticates (username password : String) (record : UserRecord) : Option Bool := do
  let name ← castString (record .Username)
  if name = username then do
    let stored ← castString (record .Password)
    some (stored = password)
  else some false

/-- The loop of the callback: every matching record sets the session and
presents the main screen. -/
def signIn (username password : String) (pairs : List (Sigma fun _ : Key => UserRecord)) :
    Option (List (Key × String)) :=
  match pairs with
  | [] => some []
  | pair :: rest => do
      let found ← authenticates username password pair.2
      let others ← signIn username password rest
      some (if found then (pair.1, username) :: others else others)

/-- `Submit_Login` with the Users snapshot that its read delivers. The failure
alert after the loop is shown in every case. -/
def submitLogin (snapshot : Database) (username password : String) : Option Outcome := do
  let found ← signIn username password snapshot.users.entries
  some
    { session := found.getLast?
      presented := found.length
      alerts :=
        (if username = "" then [SignUpViewController.missingUsername] else []) ++
        (if password = "" then [SignUpViewController.missingPassword] else []) ++
        [loginFailed] }

end LoginViewController

/-- The loop shared by the three callbacks that write to the signed-in user's
records: the name is read when the callback runs. -/
def ownUpdates (snapshot : Database) (signedIn : Option String) (field : UserField)
    (value : UserRecord → Option Value) : Option (List Write) :=
  let update (pairs : Sigma fun _ : Key => UserRecord) : Option (List Write) := do
    let name ← castString (pairs.2 .Username)
    if some name = signedIn then do
      let new ← value pairs.2
      some [.updateUser pairs.1 field new]
    else some []
  (snapshot.users.entries.mapM update).map List.flatten

/-- `Submit_Auction`'s read of Users: `ItemsAuctioned` plus one. -/
def OpenNewAuctionViewController.countAuction (snapshot : Database)
    (signedIn : Option String) : Option (List Write) :=
  ownUpdates snapshot signedIn .ItemsAuctioned fun pairs => do
    let count ← castInt (pairs .ItemsAuctioned)
    some (.number (count + 1))

/-- The Users read of the Won screen: the length of its list at that moment. -/
def AuctionWonViewController.countWon (snapshot : Database) (signedIn : Option String)
    (listed : Nat) : Option (List Write) :=
  ownUpdates snapshot signedIn .AuctionsWon fun _ => some (.number listed)

/-- What the Users callback of the profile puts on the screen: two labels, and
the text of the URL that the image view loads. -/
structure ProfileViewController.UserLabels where
  itemsWon : String
  itemsAuctioned : String
  profileImage : String
deriving DecidableEq

/-- The Users callback of the profile's `retrieveData`, which unwraps
`SignedIn_UserName!` for each record; `isURL` tells what `URL(string:)` takes. -/
def ProfileViewController.retrieveUser (isURL : String → Bool) (snapshot : Database)
    (signedIn : Option String) (labels : UserLabels) : Option UserLabels :=
  let update (labels : UserLabels) (pairs : Sigma fun _ : Key => UserRecord) :
      Option UserLabels := do
    let name ← castString (pairs.2 .Username)
    let userName ← signedIn
    if name = userName then do
      let auctionsWon ← castInt (pairs.2 .AuctionsWon)
      let itemsAuctioned ← castInt (pairs.2 .ItemsAuctioned)
      let profileImage ← castString (pairs.2 .ProfileImage)
      some ⟨toString auctionsWon, toString itemsAuctioned,
        if isURL profileImage then profileImage else labels.profileImage⟩
    else some labels
  snapshot.users.entries.foldlM update labels

/-- A profile screen: the label that `viewDidLoad` sets, and what its two
observers have put on the screen. -/
structure ProfileViewController.Screen where
  username : String
  labels : UserLabels
  totals : Totals

/-- `viewDidLoad`, after `retrieveData` has registered the observers. The labels
have the texts of the storyboard, and no image is there yet. -/
def ProfileViewController.viewDidLoad (signedIn : Option String) : Option Screen :=
  signedIn.map fun userName => ⟨userName, ⟨"0", "0", ""⟩, ⟨0, 0⟩⟩

/-- The Users read after a profile image has been uploaded. -/
def ProfileViewController.setImage (snapshot : Database) (signedIn : Option String)
    (url : String) : Option (List Write) :=
  ownUpdates snapshot signedIn .ProfileImage fun _ => some (.string url)

end Auctioneer
