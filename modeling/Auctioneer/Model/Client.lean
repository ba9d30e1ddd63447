import Auctioneer.Library.Machine
import Auctioneer.Model.Controllers

/-!
One running app: the globals of its `AppDelegate`, the screens it has built,
its registered observers and outstanding reads, and every event that can reach
it. Controllers are never freed, since the observers they register hold them.
-/

namespace Auctioneer

inductive Tab where
  | homeFeed | openNewAuction | yourListing | auctionWon | profile
deriving DecidableEq, Repr

/-- A list screen with the number of observers its `viewDidLoad` and its
refreshes have registered on Products. -/
structure ListScreen where
  kind : ListKind
  observers : Nat
  auctionItemList : List Ref
deriving DecidableEq

inductive TaskKind where
  | countAuction
  | countWon (screen : Nat)
  | uploadProfileImage
  | setProfileImage (url : String)
deriving DecidableEq

/-- Asynchronous work of a user action. `author` is who was signed in when it
started; it is history only. -/
structure UserTask where
  kind : TaskKind
  author : Option String
deriving DecidableEq

/-- The tab bar controller presented by one sign-in. Each tab keeps its
navigation stack: a list and at most one details screen. The Listings, Won and
profile screens are loaded when their tab is first selected. -/
structure TabBar where
  selectedIndex : Tab
  homeFeed : Nat
  homeFeedDetails : Option Nat
  form : OpenNewAuctionViewController.Form
  yourListing : Option Nat
  yourListingsDetails : Option Key
  auctionWon : Option Nat
  auctionWonDetails : Option Key
  profile : Option Nat

structure Client where
  signedInUserKey : Option Key
  signedInUserName : Option String
  selectedToViewAuctionItem : Option Ref
  heap : Heap
  listScreens : List ListScreen
  detailScreens : List HomeFeedDetailsViewController.Screen
  profileScreens : List ProfileViewController.Screen
  priceReads : List Key
  tasks : List UserTask
  tabBar : Option TabBar
  crashed : Bool

def Client.launch : Client :=
  ⟨none, none, none, [], [], [], [], [], [], none, false⟩

/-- What a client can read: the clock and the zone of its device, a fresh key,
and the states of the database that a snapshot may show. -/
structure Env where
  zone : TimeZone
  now : Date
  later : Date
  snapshots : List Database
  freshKey : Key

/-- Events of one client. Numbers pick a snapshot, a row, a screen or an
outstanding read; `isURL` tells which texts `URL(string:)` takes. -/
inductive Action where
  | signUp (snapshot : Nat) (username password : String)
  | login (snapshot : Nat) (username password : String)
  | signOut
  | selectTab (tab : Tab)
  | selectRow (row : Nat)
  | popDetails
  | pullDownRefresh
  | productsEvent (screen snapshot : Nat)
  | detailsEvent (screen snapshot : Nat)
  | priceRead (read snapshot : Nat)
  | bidSubmit (text : String)
  | deleteListing
  | formAppears
  | fillForm (itemName startingPrice : String) (closingDate : Date)
  | imagePicked (image file : Option String)
  | uploadEnded (upload : Nat) (url : Option String)
  /-- The press, and when its second reading of the clock happens. -/
  | submitAuction (later : Date)
  | profileImagePicked
  | profileUploadEnded (task : Nat) (url : Option String)
  | usersEvent (task snapshot : Nat)
  | profileUsersEvent (screen snapshot : Nat) (isURL : String → Bool)
  | profileProductsEvent (screen snapshot : Nat)

inductive Reaction where
  | crash
  | done (client : Client) (issues : List Issue)

namespace Reaction

/-- A trap crashes the app; otherwise the callback goes on. -/
def orCrash {α : Type} (outcome : Option α) (next : α → Reaction) : Reaction :=
  outcome.elim .crash next

@[simp] theorem orCrash_eq_done {α : Type} {outcome : Option α} {next : α → Reaction}
    {client : Client} {issues : List Issue} :
    orCrash outcome next = .done client issues ↔
      ∃ result, outcome = some result ∧ next result = .done client issues := by
  cases outcome <;> simp [orCrash]

end Reaction

namespace Client

variable (env : Env) (client : Client)

/-- The item that `SelectedToViewAuctionItem` refers to. -/
def selectedItem : Option AuctionItem :=
  client.selectedToViewAuctionItem.bind fun ref => client.heap[ref]?

def signUp (snapshot : Nat) (username password : String) : Option Reaction := do
  let users ← env.snapshots[snapshot]?
  let outcome := SignUpViewController.signUpButton users username password
  some (.orCrash outcome fun outcome => .done client
    (outcome.record.toList.map fun record => ⟨.setUser env.freshKey record, .signUp username⟩))

/-- A fresh tab bar with its first tab loaded. The screens of earlier sign-ins
stay alive, out of sight. -/
def presentMain (key : Key) (name : String) : Client :=
  { client with
    signedInUserKey := some key
    signedInUserName := some name
    listScreens := client.listScreens ++ [⟨.homeFeed, 1, []⟩]
    tabBar := some
      { selectedIndex := .homeFeed
        homeFeed := client.listScreens.length
        homeFeedDetails := none
        form := .fresh env.now
        yourListing := none
        yourListingsDetails := none
        auctionWon := none
        auctionWonDetails := none
        profile := none } }

/-- The session is set by the last record that matches. -/
def login (snapshot : Nat) (username password : String) : Option Reaction := do
  let users ← env.snapshots[snapshot]?
  let outcome := LoginViewController.submitLogin users username password
  if client.tabBar.isSome then none
  else some (.orCrash outcome fun outcome =>
    match outcome.session with
    | none => .done client []
    | some (key, name) => .done (client.presentMain env key name) [])

/-- `SignOut_Button` only dismisses: the session stays set. -/
def signOut : Option Reaction := do
  let bar ← client.tabBar
  if bar.selectedIndex = .profile then some (.done { client with tabBar := none } [])
  else none

/-- The first visit loads the screen, which registers an observer. -/
def loadYourListing (bar : TabBar) : Client :=
  match bar.yourListing with
  | some _ => { client with tabBar := some { bar with selectedIndex := .yourListing } }
  | none =>
      { client with
        listScreens := client.listScreens ++ [⟨.yourListing, 1, []⟩]
        tabBar := some
          { bar with
            selectedIndex := .yourListing
            yourListing := some client.listScreens.length } }

/-- The first visit also starts a read of Users. -/
def loadAuctionWon (bar : TabBar) : Client :=
  match bar.auctionWon with
  | some _ => { client with tabBar := some { bar with selectedIndex := .auctionWon } }
  | none =>
      { client with
        listScreens := client.listScreens ++ [⟨.auctionWon, 1, []⟩]
        tasks := client.tasks ++
          [⟨.countWon client.listScreens.length, client.signedInUserName⟩]
        tabBar := some
          { bar with
            selectedIndex := .auctionWon
            auctionWon := some client.listScreens.length } }

def openForm (bar : TabBar) : Client :=
  { client with
    tabBar := some
      { bar with
        selectedIndex := .openNewAuction
        form := if bar.selectedIndex = .openNewAuction then bar.form
          else OpenNewAuctionViewController.viewDidAppear env.now bar.form } }

/-- The first visit registers an observer of Users and one of Products. -/
def loadProfile (bar : TabBar) : Option Client :=
  match bar.profile with
  | some _ => some { client with tabBar := some { bar with selectedIndex := .profile } }
  | none =>
      (ProfileViewController.viewDidLoad client.signedInUserName).map fun screen =>
        { client with
          profileScreens := client.profileScreens ++ [screen]
          tabBar := some
            { bar with
              selectedIndex := .profile
              profile := some client.profileScreens.length } }

def selectTab (tab : Tab) : Option Reaction := do
  let bar ← client.tabBar
  let shown := match tab with
    | .yourListing => some (client.loadYourListing bar)
    | .auctionWon => some (client.loadAuctionWon bar)
    | .openNewAuction => some (client.openForm env bar)
    | .homeFeed => some { client with tabBar := some { bar with selectedIndex := .homeFeed } }
    | .profile => client.loadProfile bar
  some (.orCrash shown fun shown => .done shown [])

/-- The list on top of the selected tab's navigation stack. -/
def visibleList (bar : TabBar) : Option Nat :=
  match bar.selectedIndex with
  | .homeFeed => if bar.homeFeedDetails.isNone then some bar.homeFeed else none
  | .yourListing => if bar.yourListingsDetails.isNone then bar.yourListing else none
  | .auctionWon => if bar.auctionWonDetails.isNone then bar.auctionWon else none
  | _ => none

/-- `didSelectRowAt` and then the `viewDidLoad` of the details screen pushed. -/
def pushDetails (bar : TabBar) (ref : Ref) (item : AuctionItem) : Client :=
  match bar.selectedIndex with
  | .homeFeed =>
      { client with
        selectedToViewAuctionItem := some ref
        detailScreens := client.detailScreens ++ [⟨ref, item.uniqueKey, none⟩]
        tabBar := some { bar with homeFeedDetails := some client.detailScreens.length } }
  | .yourListing =>
      { client with
        selectedToViewAuctionItem := some ref
        priceReads := client.priceReads ++ [item.uniqueKey]
        tabBar := some { bar with yourListingsDetails := some item.uniqueKey } }
  | .auctionWon =>
      { client with
        selectedToViewAuctionItem := some ref
        tabBar := some { bar with auctionWonDetails := some item.uniqueKey } }
  | _ => client

def selectRow (row : Nat) : Option Reaction := do
  let bar ← client.tabBar
  let screen ← visibleList bar
  let list ← client.listScreens[screen]?
  let ref ← list.auctionItemList[row]?
  let item ← client.heap[ref]?
  some (.done (client.pushDetails bar ref item) [])

def popDetails : Option Reaction := do
  let bar ← client.tabBar
  let popped := match bar.selectedIndex with
    | .homeFeed => { bar with homeFeedDetails := none }
    | .yourListing => { bar with yourListingsDetails := none }
    | .auctionWon => { bar with auctionWonDetails := none }
    | _ => bar
  some (.done { client with tabBar := some popped } [])

/-- `retrieveData` again: one more observer. -/
def pullDownRefresh : Option Reaction := do
  let bar ← client.tabBar
  let screen ← visibleList bar
  some (.done
    { client with
      listScreens := client.listScreens.modify screen fun list =>
        { list with observers := list.observers + 1 } } [])

def retrieveData (kind : ListKind) (snapshot : Database) : Option (List AuctionItem) :=
  match kind with
  | .homeFeed => HomeFeedViewController.retrieveData env.zone env.now snapshot
  | .yourListing =>
      YourListingViewController.retrieveData env.zone env.now client.signedInUserName snapshot
  | .auctionWon =>
      AuctionWonViewController.retrieveData env.zone env.now client.signedInUserName snapshot

/-- The list of a screen is replaced by new items. -/
def showItems (screen : Nat) (items : List AuctionItem) : Client :=
  { client with
    heap := client.heap ++ items
    listScreens := client.listScreens.modify screen fun list =>
      { list with auctionItemList := List.range' client.heap.length items.length } }

/-- The rows that `reloadData` binds to `AuctionItemList`: all that `viewDidAppear`
of a list screen does. -/
def rows (screen : Nat) : Option (List AuctionItem) :=
  client.listScreens[screen]?.bind fun list =>
    list.auctionItemList.mapM fun ref => client.heap[ref]?

/-- One observer of a list screen runs. -/
def productsEvent (screen snapshot : Nat) : Option Reaction := do
  let list ← client.listScreens[screen]?
  let products ← env.snapshots[snapshot]?
  if list.observers = 0 then none
  else some (.orCrash (client.retrieveData env list.kind products) fun items =>
    .done (client.showItems screen items) [])

/-- The observer of a HomeFeedDetails screen runs. -/
def detailsEvent (screen snapshot : Nat) : Option Reaction := do
  let shown ← client.detailScreens[screen]?
  let db ← env.snapshots[snapshot]?
  let updated := HomeFeedDetailsViewController.livePriceUpdate
    (db.products.lookup shown.product) client.selectedToViewAuctionItem client.heap shown
  some (.orCrash updated fun updated => .done
    { client with
      heap := updated.1
      detailScreens := client.detailScreens.set screen updated.2 } [])

def priceRead (read snapshot : Nat) : Option Reaction := do
  let product ← client.priceReads[read]?
  let db ← env.snapshots[snapshot]?
  let updated := YourListingsDetailsViewController.priceRead
    (db.products.lookup product) client.selectedToViewAuctionItem client.heap
  some (.orCrash updated fun heap => .done
    { client with heap, priceReads := client.priceReads.eraseIdx read } [])

/-- The result of a press of `Bid_Submit`, if a HomeFeedDetails screen is on
top: `none` inside when it traps. -/
def bidOutcome (text : String) : Option (Option HomeFeedDetailsViewController.BidOutcome) := do
  let bar ← client.tabBar
  let screen ← bar.homeFeedDetails
  let shown ← client.detailScreens[screen]?
  if bar.selectedIndex = .homeFeed then
    some (HomeFeedDetailsViewController.bidSubmit client.selectedItem client.signedInUserName
      shown.minimumBid text env.now)
  else none

/-- The product that a press writes to and the name it writes. -/
def bidTarget : Option (Key × String) := do
  let item ← client.selectedItem
  let userName ← client.signedInUserName
  some (item.uniqueKey, userName)

def bidSubmit (text : String) : Option Reaction := do
  let outcome ← client.bidOutcome env text
  some (.orCrash outcome fun outcome =>
    match outcome with
    | .alert _ => .done client []
    | .bid amount => .orCrash client.bidTarget fun target => .done client
        (HomeFeedDetailsViewController.bidIssues target.1 amount target.2))

def deleteListing : Option Reaction := do
  let bar ← client.tabBar
  let shown ← bar.yourListingsDetails
  let deletion := YourListingsDetailsViewController.deleteListing client.selectedItem shown
    client.signedInUserName
  if bar.selectedIndex = .yourListing then
    some (.orCrash deletion fun issue => .done
      { client with tabBar := some { bar with yourListingsDetails := none } } [issue])
  else none

/-- An event of the form: it changes nothing else. -/
def onForm (change : OpenNewAuctionViewController.Form → OpenNewAuctionViewController.Form) :
    Option Reaction := do
  let bar ← client.tabBar
  some (.done { client with tabBar := some { bar with form := change bar.form } } [])

def submitAuction : Option Reaction := do
  let bar ← client.tabBar
  let outcome := OpenNewAuctionViewController.submitAuction env.zone bar.form
    client.signedInUserName env.now env.later
  if bar.selectedIndex = .openNewAuction then
    some (.orCrash outcome fun outcome =>
      match outcome with
      | .alert _ => .done client []
      | .create record => .done
          { client with
            tasks := client.tasks ++ [⟨.countAuction, client.signedInUserName⟩]
            tabBar := some { bar with selectedIndex := .homeFeed } }
          [⟨.setProduct env.freshKey record, .submitAuction client.signedInUserName⟩])
  else none

def profileImagePicked : Option Reaction := do
  let bar ← client.tabBar
  if bar.selectedIndex = .profile then
    some (.done
      { client with
        tasks := client.tasks ++ [⟨.uploadProfileImage, client.signedInUserName⟩] } [])
  else none

/-- The upload of a profile image ends: with its download URL, and then a read
of Users starts, or with an error. -/
def profileUploadEnded (task : Nat) (url : Option String) : Option Reaction := do
  let pending ← client.tasks[task]?
  if pending.kind = .uploadProfileImage then
    some (.done
      { client with
        tasks := match url with
          | none => client.tasks.eraseIdx task
          | some url => client.tasks.set task ⟨.setProfileImage url, pending.author⟩ } [])
  else none

/-- The writes of a Users callback, or `none` when the task awaits no snapshot. -/
def taskWrites (kind : TaskKind) (snapshot : Database) : Option (Option (List Write)) :=
  match kind with
  | .uploadProfileImage => none
  | .countAuction =>
      some (OpenNewAuctionViewController.countAuction snapshot client.signedInUserName)
  | .countWon screen =>
      some (AuctionWonViewController.countWon snapshot client.signedInUserName
        ((client.listScreens[screen]?).elim 0 (·.auctionItemList.length)))
  | .setProfileImage url =>
      some (ProfileViewController.setImage snapshot client.signedInUserName url)

def usersEvent (task snapshot : Nat) : Option Reaction := do
  let pending ← client.tasks[task]?
  let users ← env.snapshots[snapshot]?
  let writes ← client.taskWrites pending.kind users
  some (.orCrash writes fun writes => .done
    { client with tasks := client.tasks.eraseIdx task }
    (writes.map fun write => ⟨write, .userTask pending.author⟩))

/-- The observer of Users of a profile screen runs. -/
def profileUsersEvent (screen snapshot : Nat) (isURL : String → Bool) : Option Reaction := do
  let shown ← client.profileScreens[screen]?
  let users ← env.snapshots[snapshot]?
  let labels :=
    ProfileViewController.retrieveUser isURL users client.signedInUserName shown.labels
  some (.orCrash labels fun labels => .done
    { client with profileScreens := client.profileScreens.set screen { shown with labels } } [])

/-- And its observer of Products. -/
def profileProductsEvent (screen snapshot : Nat) : Option Reaction := do
  let shown ← client.profileScreens[screen]?
  let products ← env.snapshots[snapshot]?
  let totals := ProfileViewController.retrieveData env.zone env.now client.signedInUserName
    products shown.totals
  some (.orCrash totals fun totals => .done
    { client with profileScreens := client.profileScreens.set screen { shown with totals } } [])

/-- The reaction of a client to an event, or `none` when the event cannot
happen. A crashed app reacts to nothing. -/
def act (action : Action) : Option Reaction :=
  if client.crashed then none
  else match action with
    | .signUp snapshot username password => client.signUp env snapshot username password
    | .login snapshot username password => client.login env snapshot username password
    | .signOut => client.signOut
    | .selectTab tab => client.selectTab env tab
    | .selectRow row => client.selectRow row
    | .popDetails => client.popDetails
    | .pullDownRefresh => client.pullDownRefresh
    | .productsEvent screen snapshot => client.productsEvent env screen snapshot
    | .detailsEvent screen snapshot => client.detailsEvent env screen snapshot
    | .priceRead read snapshot => client.priceRead env read snapshot
    | .bidSubmit text => client.bidSubmit env text
    | .deleteListing => client.deleteListing
    | .formAppears => client.onForm (OpenNewAuctionViewController.viewDidAppear env.now)
    | .fillForm itemName startingPrice closingDate => client.onForm fun form =>
        { form with itemName, startingPrice, closingDate }
    | .imagePicked image file =>
        client.onForm (OpenNewAuctionViewController.imagePicked image file)
    | .uploadEnded upload url =>
        client.onForm fun form =>
          if upload < form.uploads.length then
            OpenNewAuctionViewController.uploadEnded upload url form
          else form
    | .submitAuction _ => client.submitAuction env
    | .profileImagePicked => client.profileImagePicked
    | .profileUploadEnded task url => client.profileUploadEnded task url
    | .usersEvent task snapshot => client.usersEvent env task snapshot
    | .profileUsersEvent screen snapshot isURL =>
        client.profileUsersEvent env screen snapshot isURL
    | .profileProductsEvent screen snapshot => client.profileProductsEvent env screen snapshot

/-- The client after an event in some surroundings. -/
def step (client : Client) (event : Env × Action) : Option Client :=
  (client.act event.1 event.2).map fun
    | .crash => { client with crashed := true }
    | .done client' _ => client'

/-- The states of a freshly launched app after any events, whatever the
snapshots, the clock and the zone. -/
abbrev Reachable : Client → Prop := Machine.Reachable step .launch

end Client

end Auctioneer
