import Auctioneer.Proof.Screens

/-!
Runs of a single client, whatever it is shown, and what holds of it throughout.
-/

namespace Auctioneer

namespace Client

variable {env : Env} {client client' : Client} {action : Action} {issues : List Issue}
  {event : Env × Action}

theorem step_eq_some (h : client.step event = some client') :
    client' = { client with crashed := true } ∨
      ∃ issues, client.act event.1 event.2 = some (.done client' issues) := by
  simp only [step, Option.map_eq_some_iff] at h
  obtain ⟨reaction, hact, hnext⟩ := h
  cases reaction with
  | crash => exact .inl hnext.symm
  | done after issues =>
      obtain rfl : after = client' := hnext
      exact .inr ⟨issues, hact⟩

/-- The references of a client are to items that it has, those of its details
screens to items of their products, and the screens of its tab bar are there. -/
structure Sound (client : Client) : Prop where
  session : ∀ bar, client.tabBar = some bar → client.signedInUserName.isSome
  selected : ∀ ref, client.selectedToViewAuctionItem = some ref →
    ∃ item, client.heap[ref]? = some item
  captured : ∀ shown ∈ client.detailScreens, ∃ item,
    client.heap[shown.thisAuctionItem]? = some item ∧ item.uniqueKey = shown.product
  chosen : ∀ bar, client.tabBar = some bar → bar.homeFeedDetails.isSome →
    client.selectedToViewAuctionItem.isSome

theorem launch_sound : Sound .launch := by
  refine ⟨?_, ?_, ?_, ?_⟩
  · intro _ hbar
    cases hbar
  · intro _ href
    cases href
  · intro _ hshown
    cases hshown
  · intro _ hbar
    cases hbar

/-- New items and prices leave every reference in place. -/
theorem Sound.of_heap (hsound : client.Sound) {heap : Heap}
    {listScreens : List ListScreen} {detailScreens : List HomeFeedDetailsViewController.Screen}
    {priceReads : List Key} (hheap : client.heap.Extends heap)
    (hcaptured : ∀ shown ∈ detailScreens, ∃ earlier ∈ client.detailScreens,
      shown.thisAuctionItem = earlier.thisAuctionItem ∧ shown.product = earlier.product) :
    Sound { client with heap, listScreens, detailScreens, priceReads } where
  session := hsound.session
  selected := by
    intro ref href
    obtain ⟨item, hitem⟩ := hsound.selected ref href
    obtain ⟨item', hitem', _⟩ := hheap ref item hitem
    exact ⟨item', hitem'⟩
  captured := by
    intro shown hshown
    obtain ⟨earlier, hearlier, href, hproduct⟩ := hcaptured shown hshown
    obtain ⟨item, hitem, hkey⟩ := hsound.captured earlier hearlier
    obtain ⟨item', hitem', hkey', _⟩ := hheap _ item hitem
    exact ⟨item', href ▸ hitem', by rw [hkey', hkey, hproduct]⟩
  chosen := hsound.chosen

/-- So does another tab bar of the same session. -/
theorem Sound.of_tabBar (hsound : client.Sound) {bar bar' : TabBar}
    {listScreens : List ListScreen} {profileScreens : List ProfileViewController.Screen}
    {tasks : List UserTask} (hbar : client.tabBar = some bar)
    (hdetails : bar'.homeFeedDetails.isSome → bar.homeFeedDetails.isSome) :
    Sound { client with listScreens, profileScreens, tasks, tabBar := some bar' } where
  session := fun _ _ => hsound.session bar hbar
  selected := hsound.selected
  captured := hsound.captured
  chosen := by
    intro shown hshown hsome
    obtain rfl := Option.some.inj hshown
    exact hsound.chosen bar hbar (hdetails hsome)

/-- A row that is tapped refers to an item of the client. -/
theorem Sound.pushDetails (hsound : client.Sound) {bar : TabBar} (hbar : client.tabBar = some bar)
    {ref : Ref} {item : AuctionItem} (hitem : client.heap[ref]? = some item) :
    (client.pushDetails bar ref item).Sound := by
  have hsession := hsound.session bar hbar
  have hselected : ∀ ref', some ref = some ref' → ∃ item, client.heap[ref']? = some item :=
    fun ref' href => ⟨item, Option.some.inj href ▸ hitem⟩
  unfold Client.pushDetails
  cases bar.selectedIndex with
  | homeFeed =>
      refine ⟨fun _ _ => hsession, hselected, ?_, fun _ _ _ => rfl⟩
      intro shown hshown
      rcases List.mem_append.mp hshown with hearlier | hadded
      · exact hsound.captured shown hearlier
      · obtain rfl := List.mem_singleton.mp hadded
        exact ⟨item, hitem, rfl⟩
  | yourListing => exact ⟨fun _ _ => hsession, hselected, hsound.captured, fun _ _ _ => rfl⟩
  | auctionWon => exact ⟨fun _ _ => hsession, hselected, hsound.captured, fun _ _ _ => rfl⟩
  | openNewAuction => exact hsound
  | profile => exact hsound

theorem Sound.act (hsound : client.Sound)
    (h : client.act env action = some (.done client' issues)) : client'.Sound := by
  have hsame : ∀ shown ∈ client.detailScreens, ∃ earlier ∈ client.detailScreens,
      shown.thisAuctionItem = earlier.thisAuctionItem ∧ shown.product = earlier.product :=
    fun shown hshown => ⟨shown, hshown, rfl, rfl⟩
  have hheap := act_extends h
  cases act_effect h with
  | worked => exact ⟨hsound.session, hsound.selected, hsound.captured, hsound.chosen⟩
  | turned _ tasks bar bar' hbar hkeeps =>
      refine hsound.of_tabBar hbar fun hsome => ?_
      rcases hkeeps.homeFeedDetails with heq | hnone
      · rwa [← heq]
      · simp [hnone] at hsome
  | dismissed =>
      refine ⟨?_, hsound.selected, hsound.captured, ?_⟩ <;>
        · intro _ hbar
          cases hbar
  | presented =>
      refine ⟨fun _ _ => rfl, hsound.selected, hsound.captured, ?_⟩
      intro bar hbar hsome
      obtain rfl := Option.some.inj hbar
      cases hsome
  | yourListing bar hbar => exact hsound.of_tabBar hbar id
  | auctionWon tasks bar hbar => exact hsound.of_tabBar hbar id
  | profile bar _ hbar => exact hsound.of_tabBar hbar id
  | redrawn => exact ⟨hsound.session, hsound.selected, hsound.captured, hsound.chosen⟩
  | pushed row bar screen list ref item hbar hscreen hlist href hitem =>
      exact hsound.pushDetails hbar hitem
  | refreshed => exact hsound.of_heap hheap hsame
  | listed screen snapshot shown db items => exact hsound.of_heap hheap hsame
  | priced screen snapshot shown db price minimumBid hshown =>
      refine hsound.of_heap hheap ?_
      intro changed hchanged
      rcases List.mem_or_eq_of_mem_set hchanged with hearlier | rfl
      · exact ⟨changed, hearlier, rfl, rfl⟩
      · exact ⟨shown, List.mem_of_getElem? hshown, rfl, rfl⟩
  | priceRead => exact hsound.of_heap hheap hsame

theorem Reachable.sound (h : Reachable client) : client.Sound := by
  refine h.invariant Sound launch_sound ?_
  intro client event client' _ hsound _ htaken
  rcases step_eq_some htaken with rfl | ⟨issues, hact⟩
  · exact ⟨hsound.session, hsound.selected, hsound.captured, hsound.chosen⟩
  · exact hsound.act hact

end Client

/-- What a client goes through in a run of the system is a run of its own. -/
theorem System.client_reachable {world : World} {ok : System → Label → Prop} {now : Date}
    {s : System} (h : ReachesUnder world ok now s) (c : ClientId) :
    Client.Reachable (s.client c) := by
  refine h.invariant (fun s => Client.Reachable (s.client c)) .refl ?_
  intro s l s' _ hreachable _ htaken
  rcases step_cases htaken with ⟨_, _, _, rfl⟩ | ⟨_, _, _, _, rfl⟩ |
    ⟨actor, action, _, _, hact, rfl⟩ | ⟨actor, action, client, issues, _, _, hact, rfl⟩
  · exact hreachable
  · exact hreachable
  · by_cases hc : c = actor
    · subst hc
      refine .step hreachable trivial (l := (s.env world c (action.ends s.now), action)) ?_
      simp [Client.step, hact]
    · rwa [react_client_ne hc]
  · by_cases hc : c = actor
    · subst hc
      refine .step hreachable trivial (l := (s.env world c (action.ends s.now), action)) ?_
      simp [Client.step, hact]
    · rwa [react_client_ne hc]

end Auctioneer
