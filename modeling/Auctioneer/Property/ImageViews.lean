import Auctioneer.Library.Machine
import Auctioneer.Model.CustomImageView

/-!
What a reused image view shows in the end. No download is ever cancelled, so the
last of them to reach the main queue wins, whichever call it is of.
-/

namespace Auctioneer

namespace CustomImageView

variable {Data Image : Type} {uiImage : Data → Option Image} {view view' : CustomImageView Image}

/-- The states of a view and its cache after any events. -/
abbrev Reachable (uiImage : Data → Option Image) : CustomImageView Image → Prop :=
  Machine.Reachable (step uiImage) fresh

/-- The image has been downloaded from the URL. -/
def Downloaded (view : CustomImageView Image) (url : String) (image : Image) : Prop :=
  ∃ fetch ∈ view.fetched, fetch.url = url ∧ fetch.image = image

/-- The URL of the request was cached or its download has succeeded. -/
def Available (view : CustomImageView Image) (request : Request Image) : Prop :=
  request.cached.isSome ∨ ∃ fetch ∈ view.fetched, fetch.call = some request.call

/-- The view shows an image of the URL last requested if one is available, and
nothing otherwise, and the cache has images of the URLs they are keyed by. -/
structure ShowsLast (view : CustomImageView Image) : Prop where
  last : ∀ request ∈ view.asked, (view.image.isSome ↔ view.Available request) ∧
    ∀ image ∈ view.image, view.Downloaded request.url image
  cache : ∀ url image, view.imageCache url = some image → view.Downloaded url image

/-- All downloads have completed, and the main queue has run their blocks. -/
def Quiet (view : CustomImageView Image) : Prop :=
  view.downloads = [] ∧ view.main = []

/-- The block that ran last since the last request, if any has, is its own. Or it
is of an earlier request, and of the same URL, or of one that has given the same
image, while an image of the URL last requested is available. -/
def PaintedInOrder (view : CustomImageView Image) : Prop :=
  ∀ request ∈ view.asked, ∀ block ∈ view.painted.getLast?,
    block.call = some request.call ∨
      view.Available request ∧ (block.url = request.url ∨
        ∃ fetch ∈ view.fetched, fetch.url = request.url ∧ fetch.url ≠ block.url ∧
          fetch.image = block.image)

/-- What every event keeps. The property never holds a task, so that no download
is cancelled. -/
structure Sound (view : CustomImageView Image) : Prop where
  task : view.task = none
  cache : ∀ url image, view.imageCache url = some image → view.Downloaded url image
  cached : ∀ request ∈ view.asked, ∀ image ∈ request.cached, view.Downloaded request.url image
  shown : view.image = (view.painted.getLast?.elim (view.asked.bind (·.cached))
    fun block => some block.image)
  blocks : ∀ block ∈ view.main ++ view.painted, block ∈ view.fetched
  requested : ∀ request ∈ view.asked, request.call < view.calls
  running : ∀ download ∈ view.downloads, download.call < view.calls
  called : ∀ fetch ∈ view.fetched, ∀ call ∈ fetch.call, call < view.calls
  pending : ∀ request ∈ view.asked, ∀ download ∈ view.downloads,
    download.call = request.call → download.url = request.url
  own : ∀ request ∈ view.asked, ∀ fetch ∈ view.fetched, fetch.call = some request.call →
    fetch.url = request.url ∧ fetch ∈ view.main ++ view.painted

theorem fresh_sound : Sound (fresh : CustomImageView Image) := by
  refine ⟨rfl, ?_, ?_, rfl, ?_, ?_, ?_, ?_, ?_, ?_⟩ <;> simp [fresh]

/-- A call starts one more download and leaves the others running. -/
theorem Sound.downloads_loadImage (h : view.Sound) (url : String) :
    (view.loadImage url).downloads = view.downloads ++ [⟨view.calls, url, false⟩] := by
  rw [CustomImageView.loadImage, h.task]
  rfl

theorem Sound.loadImage (h : view.Sound) (url : String) : (view.loadImage url).Sound where
  task := h.task
  cache := h.cache
  cached := by
    rintro request ⟨⟩ image himage
    exact h.cache url image himage
  shown := rfl
  blocks := by
    intro block hblock
    refine h.blocks block ?_
    rw [CustomImageView.loadImage, List.append_nil] at hblock
    exact List.mem_append_left _ hblock
  requested := by
    rintro request ⟨⟩
    exact Nat.lt_succ_self _
  running := by
    intro download hdownload
    rw [h.downloads_loadImage, List.mem_append] at hdownload
    rcases hdownload with hold | hnew
    · exact Nat.lt_succ_of_lt (h.running download hold)
    · obtain rfl := List.mem_singleton.mp hnew
      exact Nat.lt_succ_self _
  called := fun fetch hfetch call hcall => Nat.lt_succ_of_lt (h.called fetch hfetch call hcall)
  pending := by
    rintro request ⟨⟩ download hdownload hcall
    rw [h.downloads_loadImage, List.mem_append] at hdownload
    rcases hdownload with hold | hnew
    · exact absurd hcall (Nat.ne_of_lt (h.running download hold))
    · obtain rfl := List.mem_singleton.mp hnew
      rfl
  own := by
    rintro request ⟨⟩ fetch hfetch hcall
    exact absurd (h.called fetch hfetch _ hcall) (Nat.lt_irrefl _)

/-- A download that has completed is forgotten. -/
theorem Sound.of_downloads (h : view.Sound) {downloads : List Download}
    (hsub : downloads ⊆ view.downloads) : Sound { view with downloads } :=
  { h with
    running := fun download hdownload => h.running download (hsub hdownload)
    pending := fun request hrequest download hdownload =>
      h.pending request hrequest download (hsub hdownload) }

theorem Downloaded.store {url : String} {image : Image} (h : view.Downloaded url image)
    (fetch : Fetch Image) : (view.store fetch).Downloaded url image := by
  obtain ⟨earlier, hearlier, hsame⟩ := h
  exact ⟨earlier, List.mem_cons_of_mem _ hearlier, hsame⟩

/-- An image gets into the cache, and onto the main queue if it is this view's. -/
theorem Sound.store (h : view.Sound) {fetch : Fetch Image} {added : List (Fetch Image)}
    (hadded : ∀ block ∈ added, block = fetch) (hcalled : ∀ call ∈ fetch.call, call < view.calls)
    (hown : ∀ request ∈ view.asked, fetch.call = some request.call →
      fetch.url = request.url ∧ fetch ∈ added) :
    Sound { view.store fetch with main := view.main ++ added } where
  task := h.task
  cache := by
    intro url image himage
    change Function.update view.imageCache fetch.url (some fetch.image) url = some image at himage
    by_cases heq : url = fetch.url
    · subst heq
      rw [Function.update_self] at himage
      exact ⟨fetch, List.mem_cons_self, rfl, Option.some.inj himage⟩
    · rw [Function.update_of_ne heq] at himage
      exact (h.cache url image himage).store fetch
  cached := fun request hrequest image himage =>
    (h.cached request hrequest image himage).store fetch
  shown := h.shown
  blocks := by
    intro block hblock
    rcases List.mem_append.mp hblock with hmain | hpainted
    · rcases List.mem_append.mp hmain with hold | hnew
      · exact List.mem_cons_of_mem _ (h.blocks block (List.mem_append_left _ hold))
      · rw [hadded block hnew]
        exact List.mem_cons_self
    · exact List.mem_cons_of_mem _ (h.blocks block (List.mem_append_right _ hpainted))
  requested := h.requested
  running := h.running
  called := by
    intro other hother
    rcases List.mem_cons.mp hother with rfl | hold
    · exact hcalled
    · exact h.called other hold
  pending := h.pending
  own := by
    intro request hrequest other hother hcall
    rcases List.mem_cons.mp hother with rfl | hold
    · obtain ⟨hurl, hmem⟩ := hown request hrequest hcall
      exact ⟨hurl, List.mem_append_left _ (List.mem_append_right _ hmem)⟩
    · obtain ⟨hurl, hmem⟩ := h.own request hrequest other hold hcall
      refine ⟨hurl, ?_⟩
      rcases List.mem_append.mp hmem with hmain | hpainted
      · exact List.mem_append_left _ (List.mem_append_left _ hmain)
      · exact List.mem_append_right _ hpainted

theorem Sound.completed {call : Nat} {data : Option Data} (h : view.Sound)
    (htaken : view.completed uiImage call data = some view') : view'.Sound := by
  obtain ⟨download, hfind, htaken⟩ := Option.bind_eq_some_iff.mp htaken
  have hdownload := List.mem_of_find?_eq_some hfind
  obtain rfl : download.call = call := by simpa using List.find?_some hfind
  have hrest := h.of_downloads (view.downloads.erase_subset (a := download))
  split at htaken
  · exact Option.some.inj htaken ▸ hrest
  · next newImage _ =>
    obtain rfl := Option.some.inj htaken
    refine hrest.store (fun block hblock => List.mem_singleton.mp hblock) ?_ ?_
    · intro call hcall
      obtain rfl := Option.some.inj hcall
      exact h.running download hdownload
    · intro request hrequest hcall
      exact ⟨h.pending request hrequest download hdownload (Option.some.inj hcall),
        List.mem_singleton_self _⟩

theorem Sound.runMain (h : view.Sound) (htaken : view.runMain = some view') : view'.Sound := by
  unfold CustomImageView.runMain at htaken
  split at htaken
  · cases htaken
  · next block rest hmain =>
    obtain rfl := Option.some.inj htaken
    have hmem : ∀ other, other ∈ rest ++ (view.painted ++ [block]) ↔
        other ∈ view.main ++ view.painted := by
      intro other
      simp only [hmain, List.mem_append, List.mem_cons, List.not_mem_nil, or_false]
      tauto
    exact
      { h with
        shown := by simp
        blocks := fun other hother => h.blocks other ((hmem other).mp hother)
        own := fun request hrequest fetch hfetch hcall =>
          (h.own request hrequest fetch hfetch hcall).imp_right (hmem fetch).mpr }

theorem Sound.step {event : ImageEvent Data} (h : view.Sound)
    (htaken : step uiImage view event = some view') : view'.Sound := by
  cases event with
  | loadImage url =>
      obtain rfl := Option.some.inj htaken
      exact h.loadImage url
  | completed call data => exact h.completed htaken
  | main => exact h.runMain htaken
  | otherCompleted url data =>
      obtain rfl := Option.some.inj htaken
      cases data.bind uiImage with
      | none => exact h
      | some newImage =>
          have hstored : Sound
              { view.store ⟨none, url, newImage⟩ with main := view.main ++ [] } :=
            h.store (by simp) (by simp) (by simp)
          rwa [List.append_nil] at hstored
  | evicted url =>
      obtain rfl := Option.some.inj htaken
      refine { h with cache := ?_ }
      intro other image himage
      change Function.update view.imageCache url none other = some image at himage
      by_cases heq : other = url
      · simp [heq] at himage
      · rw [Function.update_of_ne heq] at himage
        exact h.cache other image himage

theorem Reachable.sound (h : Reachable uiImage view) : view.Sound :=
  h.invariant Sound fresh_sound fun _ _ _ _ hsound _ htaken => hsound.step htaken

/-- After all downloads the view shows the image last asked for exactly when the
blocks have run in the order of the requests, as far as it matters. -/
theorem shows_last_iff (h : Reachable uiImage view) (hquiet : view.Quiet) :
    view.ShowsLast ↔ view.PaintedInOrder := by
  obtain ⟨_, hcache, hcached, hshown, hblocks, _, _, _, _, hown⟩ := h.sound
  obtain ⟨_, hmain⟩ := hquiet
  simp only [hmain, List.nil_append] at hblocks hown
  constructor
  · intro hlast request hrequest block hblock
    rw [hblock] at hshown
    obtain ⟨havailable, himages⟩ := hlast.last request hrequest
    obtain ⟨fetch, hfetch, hurl, himage⟩ := himages _ hshown
    refine .inr ⟨havailable.mp (by rw [hshown]; rfl), ?_⟩
    by_cases hsame : block.url = request.url
    · exact .inl hsame
    · exact .inr ⟨fetch, hfetch, hurl, fun heq => hsame (heq.symm.trans hurl), himage⟩
  · intro horder
    refine ⟨?_, hcache⟩
    intro request hrequest
    cases hpainted : view.painted.getLast? with
    | none =>
        have hnone : view.painted = [] := List.getLast?_eq_none_iff.mp hpainted
        rw [hpainted, hrequest] at hshown
        have hnotFetched : ¬ ∃ fetch ∈ view.fetched, fetch.call = some request.call := by
          rintro ⟨fetch, hfetch, hcall⟩
          have hmem := (hown request hrequest fetch hfetch hcall).2
          rw [hnone] at hmem
          cases hmem
        rw [hshown]
        exact ⟨⟨.inl, fun havailable => havailable.resolve_right hnotFetched⟩,
          hcached request hrequest⟩
    | some block =>
        rw [hpainted] at hshown
        have hfetched := hblocks block (List.mem_of_getLast? hpainted)
        have hright : view.Available request ∧ view.Downloaded request.url block.image := by
          rcases horder request hrequest block hpainted with
            hcall | ⟨havailable, hsame | ⟨fetch, hfetch, hurl, _, himage⟩⟩
          · exact ⟨.inr ⟨block, hfetched, hcall⟩,
              block, hfetched, (hown request hrequest block hfetched hcall).1, rfl⟩
          · exact ⟨havailable, block, hfetched, hsame, rfl⟩
          · exact ⟨havailable, fetch, hfetch, hurl, himage⟩
        rw [hshown]
        refine ⟨⟨fun _ => hright.1, fun _ => rfl⟩, ?_⟩
        intro image himage
        obtain rfl := Option.some.inj himage
        exact hright.2

/-- The cell is recycled, and the images arrive in the order of the calls. Data are
their own images here. -/
theorem shows_last_of_two :
    ∃ view : CustomImageView Nat, view.image = some 2 ∧ view.ShowsLast := by
  obtain ⟨view, hrun, himage, hdownloads, hmain, hpainted⟩ :
      ∃ view ∈ Machine.run (step (some : Nat → Option Nat)) fresh
          [.loadImage "a", .loadImage "b", .completed 0 (some 1), .main, .completed 1 (some 2),
            .main],
        view.image = some 2 ∧ view.downloads = [] ∧ view.main.isEmpty ∧
          ∀ request ∈ view.asked, ∀ block ∈ view.painted.getLast?,
            block.call = some request.call := by
    decide +kernel
  have hreach : Reachable some view := Machine.reachable_of_run _ hrun
  exact ⟨view, himage, (shows_last_iff hreach ⟨hdownloads, List.isEmpty_iff.mp hmain⟩).mpr
    fun request hrequest block hblock => .inl (hpainted request hrequest block hblock)⟩

/-- Or the first image arrives after the second one. -/
theorem not_shows_last :
    ¬ ∀ (Data Image : Type) (uiImage : Data → Option Image) (view : CustomImageView Image),
      Reachable uiImage view → view.Quiet → view.ShowsLast := by
  intro hlast
  obtain ⟨view, hrun, himage, hdownloads, hmain, request, hrequest, hurl, hother⟩ :
      ∃ view ∈ Machine.run (step (some : Nat → Option Nat)) fresh
          [.loadImage "a", .loadImage "b", .completed 1 (some 2), .main, .completed 0 (some 1),
            .main],
        view.image = some 1 ∧ view.downloads = [] ∧ view.main.isEmpty ∧
          ∃ request ∈ view.asked, request.url = "b" ∧
            ∀ fetch ∈ view.fetched, fetch.url = "b" → fetch.image ≠ 1 := by
    decide +kernel
  have hreach : Reachable some view := Machine.reachable_of_run _ hrun
  obtain ⟨fetch, hfetch, hfetchUrl, hshown⟩ :=
    ((hlast _ _ _ view hreach ⟨hdownloads, List.isEmpty_iff.mp hmain⟩).last request hrequest).2 1
      himage
  exact hother fetch hfetch (hfetchUrl.trans hurl) hshown

end CustomImageView

end Auctioneer
