import Auctioneer.Model.Labels
import Auctioneer.Property.OpenUntilClosing

/-!
The dates that the screens show. A device prints back what it has read of its own
dates, so each label shows the text of the record that its date comes from.
-/

namespace Auctioneer

namespace DateFormatter

/-- A civil time that exists is the one of its local minute. -/
theorem fieldsOf_localMinuteOf {fields : Fields} (hvalid : fields.date.Valid)
    (hhour : 0 ≤ fields.hour ∧ fields.hour < 24)
    (hminute : 0 ≤ fields.minute ∧ fields.minute < 60) :
    fieldsOf (localMinuteOf fields) = fields := by
  obtain ⟨date, hour, minute⟩ := fields
  dsimp only at *
  have hday : (date.toDay * 1440 + hour * 60 + minute) / 1440 = date.toDay := by omega
  have hhours : (date.toDay * 1440 + hour * 60 + minute) % 1440 / 60 = hour := by omega
  have hminutes : (date.toDay * 1440 + hour * 60 + minute) % 60 = minute := by omega
  simp only [fieldsOf, localMinuteOf, hday, hhours, hminutes]
  rw [hvalid]

/-- The year of an era is printed as it is. -/
theorem print_printed (fields : Fields) : print fields.printed = print fields := by
  have hyear : 1 ≤ fields.printed.date.year := by
    simp only [Fields.printed]
    split <;> omega
  simp only [print, hyear, if_true]
  rfl

/-- A device with a fixed offset prints what it has read of a date of its own as
it was. -/
theorem string_of_date {offset : ℤ} {written read : Date}
    (h : date (TimeZone.fixed offset) (string (TimeZone.fixed offset) written) = some read) :
    string (TimeZone.fixed offset) read = string (TimeZone.fixed offset) written := by
  rw [date_string] at h
  split at h
  · next hvalid =>
    obtain ⟨_, _, hhour, hminute⟩ :=
      fieldsOf_inRange (written.minute + (TimeZone.fixed offset).offset written.minute)
    have hback := fieldsOf_localMinuteOf hvalid hhour hminute
    simp only [TimeZone.fixed, Option.map_some, Option.some.injEq] at h
    have hlocal : read.minute + offset =
        localMinuteOf (fieldsAt (TimeZone.fixed offset) written).printed := by
      rw [← h, Date.minute, mul_div_cancel_left₀ _ (by norm_num), Int.floor_intCast]
      exact Int.sub_add_cancel _ _
    change print (fieldsOf (read.minute + offset)) = _
    rw [hlocal, hback, print_printed]
    rfl
  · cases h

/-- A printed date ends with its half of the day. -/
theorem string_ne_default (zone : TimeZone) (d : Date) : string zone d ≠ "1/1/2022 12:00" := by
  intro heq
  have hlast := congrArg (fun text : String => text.toList.getLast?) heq
  simp only [string, print, String.toList_append, List.getLast?_append] at hlast
  split at hlast <;> simp at hlast

end DateFormatter

open DateFormatter

/-- What a screen puts in front of the closing date. -/
def DateScreen.caption : DateScreen → String
  | .homeFeed => "Closes on, "
  | _ => ""

/-- The text under the closing date is the one that the record has, and so is the
one under the opening date where there is one. -/
def DateScreen.ShowsStored (screen : DateScreen) (zone : TimeZone) (record : ProductRecord)
    (item : AuctionItem) : Prop :=
  ∃ opendate closedate, record .opendate = some (.string opendate) ∧
    record .closedate = some (.string closedate) ∧
    (screen.labels zone item).closing = screen.caption ++ closedate ∧
    ∀ text ∈ (screen.labels zone item).opened, text = opendate

/-- All screens but one feed their labels from the same fields. -/
theorem DateScreen.labels_eq {screen : DateScreen} (h : screen ≠ .yourListingsDetails)
    (zone : TimeZone) (item : AuctionItem) :
    (screen.labels zone item).closing = screen.caption ++ string zone item.closeDate ∧
      ∀ text ∈ (screen.labels zone item).opened, text = string zone item.openDate := by
  cases screen with
  | homeFeed => simp [labels, caption, HomeFeedViewController.dateLabels]
  | homeFeedDetails => simp [labels, caption, HomeFeedDetailsViewController.dateLabels]
  | auctionWonDetails => simp [labels, caption, AuctionWonDetailsViewController.dateLabels]
  | yourListingsDetails => exact absurd rfl h

/-- Every screen but the details of a listing shows the dates of a record that its
device has written, and that one never does. -/
theorem stored_dates_shown_iff (screen : DateScreen) {offset : ℤ}
    {form : OpenNewAuctionViewController.Form} {signedIn : Option String}
    {submitted later now : Date} {record pairs : ProductRecord} {key : Key} {item : AuctionItem}
    (hcreate : OpenNewAuctionViewController.submitAuction (TimeZone.fixed offset) form signedIn
      submitted later = some (.create record))
    (hopendate : pairs .opendate = record .opendate)
    (hclosedate : pairs .closedate = record .closedate)
    (hread : AuctionItem.decode (TimeZone.fixed offset) now key pairs = some item) :
    screen.ShowsStored (TimeZone.fixed offset) record item ↔ screen ≠ .yourListingsDetails := by
  obtain ⟨userName, price, _, _, rfl⟩ :=
    OpenNewAuctionViewController.submitAuction_create hcreate
  have hitem := AuctionItem.decode_readFrom hread
  obtain ⟨opentext, hopentext, hopen⟩ := hitem.opendate
  obtain ⟨closetext, hclosetext, hclose⟩ := hitem.closedate
  obtain rfl := Value.string.inj (Option.some.inj (hopendate.symm.trans hopentext))
  obtain rfl := Value.string.inj (Option.some.inj (hclosedate.symm.trans hclosetext))
  have hopened := string_of_date hopen
  have hclosed := string_of_date hclose
  constructor
  · rintro ⟨opendate, closedate, hrecord, _, _, hlabel⟩ rfl
    have hdefault : "1/1/2022 12:00" = opendate := hlabel _ rfl
    have hstored := Value.string.inj (Option.some.inj hrecord)
    exact string_ne_default _ _ (hstored.trans hdefault.symm)
  · intro hscreen
    obtain ⟨hclosing, hopening⟩ := DateScreen.labels_eq hscreen (TimeZone.fixed offset) item
    rw [hclosed] at hclosing
    refine ⟨_, _, rfl, rfl, hclosing, ?_⟩
    intro text htext
    rw [hopening text htext, hopened]

/-- The record of Sue's lamp. -/
def lampRecord : ProductRecord :=
  OpenNewAuctionViewController.productRecord "Lamp" "https://host/lamp.jpg" "sue"
    "24 Jan 2022, 3:00 PM" "24 Jan 2022, 4:00 PM" 10

theorem lamp_created :
    OpenNewAuctionViewController.submitAuction (TimeZone.fixed 480) (lampForm 1643011200)
      (some "sue") 1643007600 1643007600 = some (.create lampRecord) := by
  have hopened : string (TimeZone.fixed 480) 1643007600 = "24 Jan 2022, 3:00 PM" := by
    decide +kernel
  have hclosed : string (TimeZone.fixed 480) 1643011200 = "24 Jan 2022, 4:00 PM" := by
    decide +kernel
  rw [lampForm_accepted _ _ _ _ (by norm_num), hopened, hclosed]
  rfl

theorem lamp_decodes :
    ∃ item, AuctionItem.decode (TimeZone.fixed 480) 1643007600 0 lampRecord = some item :=
  Option.isSome_iff_exists.mp
    ((productRecord_complete _ _ _ _ _ _).decode_isSome (by decide +kernel))

theorem stored_dates_shown_of_lamp :
    ∃ item, AuctionItem.decode (TimeZone.fixed 480) 1643007600 0 lampRecord = some item ∧
      DateScreen.homeFeedDetails.ShowsStored (TimeZone.fixed 480) lampRecord item := by
  obtain ⟨item, hread⟩ := lamp_decodes
  exact ⟨item, hread,
    (stored_dates_shown_iff .homeFeedDetails lamp_created rfl rfl hread).mpr (by decide)⟩

/-- The details of her listing never show when it opened. -/
theorem not_stored_dates_shown :
    ¬ ∀ (screen : DateScreen) (offset : ℤ) (form : OpenNewAuctionViewController.Form)
      (signedIn : Option String) (submitted later now : Date) (record pairs : ProductRecord)
      (key : Key) (item : AuctionItem),
      OpenNewAuctionViewController.submitAuction (TimeZone.fixed offset) form signedIn submitted
        later = some (.create record) →
      pairs .opendate = record .opendate → pairs .closedate = record .closedate →
      AuctionItem.decode (TimeZone.fixed offset) now key pairs = some item →
      screen.ShowsStored (TimeZone.fixed offset) record item := by
  intro hshown
  obtain ⟨item, hread⟩ := lamp_decodes
  obtain ⟨opendate, _, hopendate, _, _, hlabel⟩ :=
    hshown .yourListingsDetails _ _ _ _ _ _ _ _ _ _ lamp_created rfl rfl hread
  obtain rfl : "24 Jan 2022, 3:00 PM" = opendate := Value.string.inj (Option.some.inj hopendate)
  have hdefault : "1/1/2022 12:00" = "24 Jan 2022, 3:00 PM" := hlabel _ rfl
  exact absurd hdefault (by decide)

end Auctioneer
