import Auctioneer.Proof.Rules

/-!
The picture of a listing. The image displayed, the flag that an image has been
uploaded and the URL of the upload are set by different events of the form, and
several uploads can be outstanding at once.
-/

namespace Auctioneer

namespace OpenNewAuctionViewController

inductive FormEvent where
  | appears (now : Date)
  | fill (itemName startingPrice : String) (closingDate : Date)
  | imagePicked (image file : Option String)
  | uploadEnded (upload : Nat) (url : Option String)

/-- What an event does to the form. -/
def FormEvent.change (event : FormEvent) (form : Form) : Form :=
  match event with
  | .appears now => viewDidAppear now form
  | .fill itemName startingPrice closingDate =>
      { form with itemName, startingPrice, closingDate }
  | .imagePicked image file => OpenNewAuctionViewController.imagePicked image file form
  | .uploadEnded upload url =>
      if upload < form.uploads.length then
        OpenNewAuctionViewController.uploadEnded upload url form
      else form

/-- A form with its history: how many picks there have been, the pick whose
image is displayed, the picks of the outstanding uploads, in their order, and
the uploads that have completed, each with its pick and its download URL. -/
structure Session where
  form : Form
  picks : Nat
  displayed : Option Nat
  waiting : List Nat
  completed : List (Nat × String)

namespace Session

def start (now : Date) : Session := ⟨.fresh now, 0, none, [], []⟩

def next (s : Session) (event : FormEvent) : Session :=
  let form := event.change s.form
  match event with
  | .appears _ => { s with form, displayed := none }
  | .fill _ _ _ => { s with form }
  | .imagePicked image file =>
      { s with
        form
        picks := s.picks + 1
        displayed := if image.isSome then some s.picks else s.displayed
        waiting := s.waiting ++ file.toList.map fun _ => s.picks }
  | .uploadEnded upload url =>
      { s with
        form
        waiting := s.waiting.eraseIdx upload
        completed := s.completed ++
          ((s.waiting[upload]?).toList.flatMap fun pick => url.toList.map (pick, ·)) }

/-- The states of a form after any events. -/
abbrev Reached (now : Date) : Session → Prop :=
  Machine.Reachable (fun s event => some (next s event)) (start now)

/-- The record has the URL of the upload of the image displayed. -/
def Pictures (s : Session) (record : ProductRecord) : Prop :=
  ∃ pick url, s.displayed = some pick ∧ (pick, url) ∈ s.completed ∧
    record .imageurl = some (.string url)

/-- An image is displayed, its upload has completed, and no later upload has
completed with another URL. -/
def LastUploadDisplayed (s : Session) : Prop :=
  ∃ pick last, s.displayed = some pick ∧ s.completed.getLast? = some last ∧
    (pick, last.2) ∈ s.completed

/-- How the form agrees with its history. -/
structure Sound (s : Session) : Prop where
  display : s.form.uploadDisplay.isSome = s.displayed.isSome
  uploads : s.waiting.length = s.form.uploads.length
  flag : s.form.didUploadImage = true ↔ s.completed ≠ []
  url : ∀ last, s.completed.getLast? = some last → s.form.returnedImageUrl = last.2

variable {s : Session} {now : Date}

theorem Sound.start (now : Date) : (Session.start now).Sound where
  display := rfl
  uploads := rfl
  flag := by simp [Session.start, Form.fresh]
  url := by simp [Session.start]

/-- The end of an upload that is outstanding. -/
theorem Sound.next_uploadEnded (h : s.Sound) {upload pick : Nat}
    (hpick : s.waiting[upload]? = some pick) (url : Option String) :
    s.next (.uploadEnded upload url) =
      { s with
        form := OpenNewAuctionViewController.uploadEnded upload url s.form
        waiting := s.waiting.eraseIdx upload
        completed := s.completed ++ url.toList.map (pick, ·) } := by
  have hlt : upload < s.form.uploads.length := by
    rw [← h.uploads]
    exact (List.getElem?_eq_some_iff.mp hpick).1
  simp [Session.next, FormEvent.change, hlt, hpick]

theorem Sound.uploadEnded (h : s.Sound) {upload pick : Nat}
    (hpick : s.waiting[upload]? = some pick) (url : Option String) :
    (s.next (.uploadEnded upload url)).Sound := by
  have hlength : (s.waiting.eraseIdx upload).length = (s.form.uploads.eraseIdx upload).length := by
    rw [List.length_eraseIdx, List.length_eraseIdx, h.uploads]
  rw [h.next_uploadEnded hpick]
  cases url with
  | none =>
      simp only [Option.toList_none, List.map_nil, List.append_nil]
      exact ⟨h.display, hlength, h.flag, h.url⟩
  | some url =>
      refine ⟨h.display, hlength, ?_, ?_⟩
      · exact iff_of_true rfl (by simp)
      · intro last hlast
        obtain rfl : (pick, url) = last := by simpa using hlast
        rfl

theorem Sound.next (h : s.Sound) (event : FormEvent) : (s.next event).Sound := by
  cases event with
  | appears now => exact ⟨rfl, h.uploads, h.flag, h.url⟩
  | fill => exact ⟨h.display, h.uploads, h.flag, h.url⟩
  | imagePicked image file =>
      refine ⟨?_, ?_, h.flag, h.url⟩
      · cases image with
        | none => exact h.display
        | some image => rfl
      · simp [Session.next, FormEvent.change, OpenNewAuctionViewController.imagePicked,
          h.uploads]
  | uploadEnded upload url =>
      cases hpick : s.waiting[upload]? with
      | some pick => exact h.uploadEnded hpick url
      | none =>
          -- there is no such upload, and nothing changes
          have hle : s.waiting.length ≤ upload := List.getElem?_eq_none_iff.mp hpick
          have hform : ¬ upload < s.form.uploads.length := by
            rw [← h.uploads]
            exact not_lt.mpr hle
          have hsame : s.next (.uploadEnded upload url) = s := by
            simp [Session.next, FormEvent.change, hform, hpick, List.eraseIdx_of_length_le hle]
          rw [hsame]
          exact h

theorem sound (h : Reached now s) : s.Sound := by
  refine h.invariant Sound (.start now) ?_
  rintro s event _ _ hsound _ hnext
  obtain rfl := Option.some.inj hnext
  exact hsound.next event

/-- A listing carries the picture displayed exactly when the upload that
completed last is the displayed one's. -/
theorem pictures_iff (h : Reached now s) (zone : TimeZone) (signedIn : Option String)
    (pressed later : Date) (record : ProductRecord)
    (hcreate : submitAuction zone s.form signedIn pressed later = some (.create record)) :
    s.Pictures record ↔ s.LastUploadDisplayed := by
  have hsound := sound h
  have hsome : s.completed ≠ [] := hsound.flag.mp (didUploadImage_of_create hcreate)
  obtain ⟨last, hlast⟩ : ∃ last, s.completed.getLast? = some last :=
    ⟨_, List.getLast?_eq_some_getLast hsome⟩
  obtain ⟨userName, price, _, _, rfl⟩ := submitAuction_create hcreate
  have hurl := hsound.url last hlast
  constructor
  · rintro ⟨pick, url, hdisplayed, hcompleted, himage⟩
    obtain rfl : s.form.returnedImageUrl = url := Value.string.inj (Option.some.inj himage)
    exact ⟨pick, last, hdisplayed, hlast, by rwa [← hurl]⟩
  · rintro ⟨pick, last', hdisplayed, hlast', hcompleted⟩
    obtain rfl := Option.some.inj (hlast.symm.trans hlast')
    refine ⟨pick, last.2, hdisplayed, hcompleted, ?_⟩
    rw [← hurl]
    rfl

/-- A lamp is photographed twice, and the second upload completes. -/
def lampPictured : Session :=
  [.imagePicked (some "dark.jpg") (some "dark.jpg"),
    .imagePicked (some "lamp.jpg") (some "lamp.jpg"),
    .uploadEnded 1 (some "https://host/lamp.jpg"), .fill "Lamp" "10" 3600].foldl next (start 0)

theorem pictures_of_lamp :
    ∃ record, submitAuction (TimeZone.fixed 480) lampPictured.form (some "sue") 0 0 =
      some (.create record) ∧ lampPictured.Pictures record := by
  have hcreate : submitAuction (TimeZone.fixed 480) lampPictured.form (some "sue") 0 0 = _ :=
    submitAuction_eq_create rfl (by decide) (by decide) (by decide +kernel)
      (show Double.ofText "10" = some (.finite 10) by decide +kernel)
  have hreached : Reached 0 lampPictured := Machine.reachable_of_run
    [.imagePicked (some "dark.jpg") (some "dark.jpg"),
      .imagePicked (some "lamp.jpg") (some "lamp.jpg"),
      .uploadEnded 1 (some "https://host/lamp.jpg"), .fill "Lamp" "10" 3600] rfl
  refine ⟨_, hcreate, ?_⟩
  exact (pictures_iff hreached _ _ _ _ _ hcreate).mpr
    ⟨1, (1, "https://host/lamp.jpg"), rfl, rfl, List.mem_singleton_self _⟩

/-- After the lamp a desk is listed, and its upload has not completed. -/
def deskPicked : Session :=
  [.appears 0, .imagePicked (some "desk.jpg") (some "desk.jpg"),
    .fill "Desk" "50" 3600].foldl next lampPictured

theorem not_pictures :
    ¬ ∀ (now : Date) (s : Session), Reached now s → ∀ (zone : TimeZone)
      (signedIn : Option String) (pressed later : Date) (record : ProductRecord),
      submitAuction zone s.form signedIn pressed later = some (.create record) →
      s.Pictures record := by
  intro hpictures
  have hcreate : submitAuction (TimeZone.fixed 480) deskPicked.form (some "sue") 0 0 = _ :=
    submitAuction_eq_create rfl (by decide) (by decide) (by decide +kernel)
      (show Double.ofText "50" = some (.finite 50) by decide +kernel)
  have hreached : Reached 0 deskPicked := Machine.reachable_of_run
    [.imagePicked (some "dark.jpg") (some "dark.jpg"),
      .imagePicked (some "lamp.jpg") (some "lamp.jpg"),
      .uploadEnded 1 (some "https://host/lamp.jpg"), .fill "Lamp" "10" 3600, .appears 0,
      .imagePicked (some "desk.jpg") (some "desk.jpg"), .fill "Desk" "50" 3600] rfl
  obtain ⟨pick, url, hdisplayed, hcompleted, _⟩ :=
    hpictures 0 deskPicked hreached _ _ _ _ _ hcreate
  have hdesk : deskPicked.displayed = some 2 ∧
      deskPicked.completed = [(1, "https://host/lamp.jpg")] := by decide +kernel
  rw [hdesk.1, Option.some.injEq] at hdisplayed
  rw [hdesk.2, List.mem_singleton, ← hdisplayed] at hcompleted
  cases hcompleted

end Session

end OpenNewAuctionViewController

open OpenNewAuctionViewController

theorem Client.onForm_form {client client' : Client} {change : Form → Form}
    {issues : List Issue} (h : client.onForm change = some (.done client' issues))
    {bar' : TabBar} (hbar' : client'.tabBar = some bar') :
    ∃ bar, client.tabBar = some bar ∧ bar'.form = change bar.form := by
  obtain ⟨bar, hbar, hdone⟩ := Option.bind_eq_some_iff.mp h
  cases hdone
  obtain rfl := Option.some.inj hbar'
  exact ⟨bar, hbar, rfl⟩

/-- Opening the tab of the form makes it appear. -/
theorem Client.selectTab_form {env : Env} {client client' : Client} {tab : Tab}
    {issues : List Issue} (h : client.selectTab env tab = some (.done client' issues))
    {bar' : TabBar} (hbar' : client'.tabBar = some bar') :
    ∃ bar, client.tabBar = some bar ∧
      (bar'.form = bar.form ∨ ∃ event : FormEvent, bar'.form = event.change bar.form) := by
  simp only [selectTab, Option.bind_eq_bind, Option.bind_eq_some_iff, Option.some.injEq,
    Reaction.orCrash_eq_done, Reaction.done.injEq] at h
  obtain ⟨bar, hbar, shown, hshown, rfl, _⟩ := h
  refine ⟨bar, hbar, ?_⟩
  cases tab with
  | openNewAuction =>
      obtain rfl := Option.some.inj hshown
      obtain rfl := Option.some.inj hbar'
      by_cases htab : bar.selectedIndex = .openNewAuction
      · exact .inl (if_pos htab)
      · exact .inr ⟨.appears env.now, if_neg htab⟩
  | yourListing =>
      obtain rfl := Option.some.inj hshown
      simp only [loadYourListing] at hbar'
      split at hbar' <;>
        · obtain rfl := Option.some.inj hbar'
          exact .inl rfl
  | auctionWon =>
      obtain rfl := Option.some.inj hshown
      simp only [loadAuctionWon] at hbar'
      split at hbar' <;>
        · obtain rfl := Option.some.inj hbar'
          exact .inl rfl
  | profile =>
      obtain ⟨_, _, rfl⟩ := loadProfile_eq_some hshown
      obtain rfl := Option.some.inj hbar'
      exact .inl rfl
  | homeFeed =>
      obtain rfl := Option.some.inj hshown
      obtain rfl := Option.some.inj hbar'
      exact .inl rfl

/-- A press of the submit button leaves the form as it is. -/
theorem Client.submitAuction_form {env : Env} {client client' : Client} {issues : List Issue}
    (h : client.submitAuction env = some (.done client' issues)) {bar' : TabBar}
    (hbar' : client'.tabBar = some bar') :
    ∃ bar, client.tabBar = some bar ∧ bar'.form = bar.form := by
  rcases submitAuction_eq_done h with ⟨rfl, _⟩ | ⟨bar, _, hbar, _, rfl, _⟩
  · exact ⟨bar', hbar', rfl⟩
  · obtain rfl := Option.some.inj hbar'
    exact ⟨bar, hbar, rfl⟩

/-- What an event of a client does to the form: a sign-in makes a fresh one, and
every other event is one of the form or leaves it. -/
theorem Client.act_form {env : Env} {client client' : Client} {action : Action}
    {issues : List Issue} (h : client.act env action = some (.done client' issues))
    {bar' : TabBar} (hbar' : client'.tabBar = some bar') :
    bar'.form = .fresh env.now ∨ ∃ bar, client.tabBar = some bar ∧
      (bar'.form = bar.form ∨ ∃ event : FormEvent, bar'.form = event.change bar.form) := by
  have hrunning := act_eq_done h
  simp only [act, hrunning, Bool.false_eq_true, if_false] at h
  cases action with
  | login =>
      rcases (login_eq_done h).2 with rfl | ⟨_, _, _, _, rfl⟩
      · exact .inr ⟨bar', hbar', .inl rfl⟩
      · obtain rfl := Option.some.inj hbar'
        exact .inl rfl
  | signUp =>
      rw [(signUp_issues h).1] at hbar'
      exact .inr ⟨bar', hbar', .inl rfl⟩
  | bidSubmit =>
      rw [(bidSubmit_issues h).1] at hbar'
      exact .inr ⟨bar', hbar', .inl rfl⟩
  | usersEvent =>
      rw [(usersEvent_issues h).1] at hbar'
      exact .inr ⟨bar', hbar', .inl rfl⟩
  | deleteListing =>
      obtain ⟨bar, hbar, rfl, _⟩ := deleteListing_issues env h
      obtain rfl := Option.some.inj hbar'
      exact .inr ⟨bar, hbar, .inl rfl⟩
  | selectTab tab => exact .inr (selectTab_form h hbar')
  | formAppears =>
      obtain ⟨bar, hbar, hform⟩ := onForm_form h hbar'
      exact .inr ⟨bar, hbar, .inr ⟨.appears env.now, hform⟩⟩
  | fillForm itemName startingPrice closingDate =>
      obtain ⟨bar, hbar, hform⟩ := onForm_form h hbar'
      exact .inr ⟨bar, hbar, .inr ⟨.fill itemName startingPrice closingDate, hform⟩⟩
  | imagePicked image file =>
      obtain ⟨bar, hbar, hform⟩ := onForm_form h hbar'
      exact .inr ⟨bar, hbar, .inr ⟨.imagePicked image file, hform⟩⟩
  | uploadEnded upload url =>
      obtain ⟨bar, hbar, hform⟩ := onForm_form h hbar'
      exact .inr ⟨bar, hbar, .inr ⟨.uploadEnded upload url, hform⟩⟩
  | submitAuction later =>
      obtain ⟨bar, hbar, hform⟩ := submitAuction_form h hbar'
      exact .inr ⟨bar, hbar, .inl hform⟩
  | _ =>
      right
      simp only [signOut, selectRow, popDetails, pushDetails, pullDownRefresh, productsEvent,
        detailsEvent, priceRead, profileImagePicked, profileUploadEnded, profileUsersEvent,
        profileProductsEvent, showItems, Option.bind_eq_bind, Option.bind_eq_some_iff,
        Option.ite_none_left_eq_some,
        Option.ite_none_right_eq_some, Option.some.injEq, Reaction.orCrash_eq_done,
        Reaction.done.injEq] at h
      grind

namespace System

variable {world : World} {now : Date} {s : System}

/-- The form of a client is one after some events of its own since it was made. -/
theorem form_session (h : Reachable world now s) (c : ClientId) :
    ∀ bar, (s.client c).tabBar = some bar →
      ∃ made session, Session.Reached made session ∧ session.form = bar.form := by
  refine client_invariant (fun _ _ client => ∀ bar, client.tabBar = some bar →
    ∃ made session, Session.Reached made session ∧ session.form = bar.form) ?_ ?_ ?_ ?_ h c
  · intro _ _ bar hbar
    cases hbar
  · intro _ _ _ _ _ hinv
    exact hinv
  · intro _ _ _ hinv
    exact hinv
  · intro s c action client issues _ _ hinv hact bar' hbar'
    rcases Client.act_form hact hbar' with hfresh | ⟨bar, hbar, hform⟩
    · exact ⟨_, _, .refl, hfresh.symm⟩
    · obtain ⟨made, session, hreached, hsession⟩ := hinv bar hbar
      rcases hform with hsame | ⟨event, hevent⟩
      · exact ⟨made, session, hreached, by rw [hsession, hsame]⟩
      · refine ⟨made, session.next event, hreached.step trivial rfl, ?_⟩
        rw [hevent, ← hsession]
        cases event <;> rfl

end System

end Auctioneer
