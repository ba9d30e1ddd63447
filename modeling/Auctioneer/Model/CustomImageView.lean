import Mathlib.Logic.Function.Basic

/-!
A `CustomImageView` and the image cache that all such views share. Downloads
complete in the background, in any order, and each then leaves a block on the main
queue that puts its image on the view.
-/

namespace Auctioneer

namespace CustomImageView

/-- A data task that is running. -/
structure Download where
  call : Nat
  url : String
  cancelled : Bool
deriving DecidableEq

/-- An image that a call of this view, or another view, has downloaded. -/
structure Fetch (Image : Type) where
  call : Option Nat
  url : String
  image : Image

/-- A call of `loadImage` and what the cache then held for its URL. -/
structure Request (Image : Type) where
  call : Nat
  url : String
  cached : Option Image

end CustomImageView

open CustomImageView

/-- `task` is the property, and `main` the blocks that the main queue has yet to
run. The last four fields are history: the number of calls, the images downloaded,
the latest call, and the blocks run since. -/
structure CustomImageView (Image : Type) where
  task : Option Nat
  image : Option Image
  imageCache : String → Option Image
  downloads : List Download
  main : List (Fetch Image)
  calls : Nat
  fetched : List (Fetch Image)
  asked : Option (Request Image)
  painted : List (Fetch Image)

/-- What can happen to a view. The cache is also written to by the downloads of
other views, and drops entries when it likes. -/
inductive ImageEvent (Data : Type) where
  | loadImage (url : String)
  | completed (call : Nat) (data : Option Data)
  | main
  | otherCompleted (url : String) (data : Option Data)
  | evicted (url : String)

namespace CustomImageView

variable {Data Image : Type}

/-- A view that nothing has been loaded into, and an empty cache. -/
def fresh : CustomImageView Image :=
  ⟨none, none, fun _ => none, [], [], 0, [], none, []⟩

/-- `task.cancel()`, if the property holds a task. -/
def cancelTask (task : Option Nat) (downloads : List Download) : List Download :=
  match task with
  | none => downloads
  | some call =>
      downloads.map fun download =>
        if download.call = call then { download with cancelled := true } else download

/-- A call. `let task` declares a constant of its own, so that the new task never
gets into the property. -/
def loadImage (url : String) (view : CustomImageView Image) : CustomImageView Image :=
  { view with
    image := view.imageCache url
    downloads := cancelTask view.task view.downloads ++ [⟨view.calls, url, false⟩]
    calls := view.calls + 1
    asked := some ⟨view.calls, url, view.imageCache url⟩
    painted := [] }

/-- `imageCache.setObject`. -/
def store (fetch : Fetch Image) (view : CustomImageView Image) : CustomImageView Image :=
  { view with
    imageCache := Function.update view.imageCache fetch.url (some fetch.image)
    fetched := fetch :: view.fetched }

/-- The completion handler of a call, with the data that has arrived, if any. A
cancelled task completes without. -/
def completed (uiImage : Data → Option Image) (call : Nat) (data : Option Data)
    (view : CustomImageView Image) : Option (CustomImageView Image) := do
  let download ← view.downloads.find? fun download => download.call = call
  let view := { view with downloads := view.downloads.erase download }
  match (if download.cancelled then none else data).bind uiImage with
  | none => some view
  | some newImage =>
      let fetch : Fetch Image := ⟨some call, download.url, newImage⟩
      some { view.store fetch with main := view.main ++ [fetch] }

/-- The block of `DispatchQueue.main.async`. -/
def runMain (view : CustomImageView Image) : Option (CustomImageView Image) :=
  match view.main with
  | [] => none
  | fetch :: rest =>
      some
        { view with
          image := some fetch.image
          main := rest
          painted := view.painted ++ [fetch] }

/-- One event. `uiImage` is `UIImage(data:)`. -/
def step (uiImage : Data → Option Image) (view : CustomImageView Image) :
    ImageEvent Data → Option (CustomImageView Image)
  | .loadImage url => some (view.loadImage url)
  | .completed call data => view.completed uiImage call data
  | .main => view.runMain
  | .otherCompleted url data =>
      some ((data.bind uiImage).elim view fun newImage => view.store ⟨none, url, newImage⟩)
  | .evicted url => some { view with imageCache := Function.update view.imageCache url none }

end CustomImageView

end Auctioneer
