import Auctioneer.Model.Controllers
import Auctioneer.Property.TimeZones
import Mathlib.Tactic.Linarith

/-!
How long an accepted auction is open. The check compares full dates, but the
record keeps minutes, and its opening date is a second reading of the clock.
-/

namespace Auctioneer

open DateFormatter

/-- The dates that the record keeps are in order, and between the submission and
the chosen closing date every screen lists the product as open and no bid on it
is refused as closed, whatever else the record or the item then holds. -/
structure OpenUntilClosing (zone : TimeZone) (submitted closing : Date)
    (record : ProductRecord) : Prop where
  ordered : ∃ opened ∈ (castString (record .opendate)).bind (DateFormatter.date zone),
    ∃ closed ∈ (castString (record .closedate)).bind (DateFormatter.date zone), opened ≤ closed
  listed : ∀ now, submitted ≤ now → now ≤ closing → ∀ key pairs item,
    pairs .opendate = record .opendate → pairs .closedate = record .closedate →
    AuctionItem.decode zone now key pairs = some item → item.isnotClosed = true
  biddable : ∀ read now, submitted ≤ now → now ≤ closing → ∀ key pairs item price,
    pairs .opendate = record .opendate → pairs .closedate = record .closedate →
    AuctionItem.decode zone read key pairs = some item → ∀ signedIn minimumBid text,
    HomeFeedDetailsViewController.bidSubmit (some { item with highestBidPrice := price })
      signedIn minimumBid text now ≠ some (.alert HomeFeedDetailsViewController.closed)

/-- The opening date is in the year 1 or later, the closing date is a whole
minute, and the clock is read again in the minute of the submission. -/
structure OnTheMinute (zone : TimeZone) (submitted closing later : Date) : Prop where
  year : 1 ≤ (fieldsAt zone later).date.year
  closing : closing = 60 * (closing.minute : Date)
  later : 60 * (later.minute : Date) ≤ submitted

theorem Date.minute_le (d : Date) : 60 * (d.minute : Date) ≤ d := by
  have hfloor : (d.minute : Date) ≤ d / 60 := Int.floor_le _
  linarith

theorem Date.minute_le_of_le {d d' : Date} (h : 60 * (d.minute : Date) ≤ d') :
    d.minute ≤ d'.minute := by
  refine Int.le_floor.mpr ?_
  linarith

section Fixed

variable {offset : ℤ} {d : Date}

theorem one_le_year_fixed :
    1 ≤ (fieldsAt (TimeZone.fixed offset) d).date.year ↔
      Civil.firstDay * 1440 ≤ d.minute + offset := by
  simp only [fieldsAt, fieldsOf, Civil.one_le_year_iff, TimeZone.fixed]
  omega

/-- In the year 1 or later a device reads back what it has printed. -/
theorem decodes_fixed (hyear : 1 ≤ (fieldsAt (TimeZone.fixed offset) d).date.year) :
    Decodes (TimeZone.fixed offset) (TimeZone.fixed offset) d := by
  refine (decodes_iff _ _ _).mpr ((sameMinute_iff_of_year hyear).mpr ?_)
  simp [TimeZone.fixed]

/-- What is read back is never before the year 1. -/
theorem firstDay_le_decoded {decoded : Date}
    (h : DateFormatter.date (TimeZone.fixed offset)
      (DateFormatter.string (TimeZone.fixed offset) d) = some decoded) :
    60 * ((Civil.firstDay * 1440 - offset : ℤ) : Date) ≤ decoded := by
  rw [date_string] at h
  split at h
  · next hvalid =>
    obtain ⟨_, _, ⟨hhour, _⟩, hminute, _⟩ :=
      fieldsOf_inRange (d.minute + (TimeZone.fixed offset).offset d.minute)
    have hyear : 1 ≤ (fieldsAt (TimeZone.fixed offset) d).printed.date.year := by
      simp only [Fields.printed]
      split <;> omega
    rw [← hvalid, Civil.one_le_year_iff] at hyear
    have hlow : Civil.firstDay * 1440 ≤
        localMinuteOf (fieldsAt (TimeZone.fixed offset) d).printed := by
      simp only [localMinuteOf, Fields.printed] at hyear ⊢
      simp only [fieldsAt] at hyear ⊢
      omega
    simp only [TimeZone.fixed, Option.map_some, Option.some.injEq] at h
    rw [← h]
    have hcast : ((Civil.firstDay * 1440 - offset : ℤ) : Date) ≤
        ((localMinuteOf (fieldsAt (TimeZone.fixed offset) d).printed - offset : ℤ) : Date) := by
      exact_mod_cast Int.sub_le_sub_right hlow offset
    exact mul_le_mul_of_nonneg_left hcast (by norm_num)
  · cases h

end Fixed

open OpenNewAuctionViewController

variable {offset : ℤ} {submitted closing later opened closed : Date}

theorem productRecord_complete (productname imageurl openby opendate closedate : String)
    (startingprice : Price) :
    (productRecord productname imageurl openby opendate closedate startingprice).Complete :=
  ⟨rfl, rfl, rfl, rfl, rfl, rfl, rfl, rfl⟩

theorem productRecord_dates (zone : TimeZone)
    (productname imageurl openby opendate closedate : String) (startingprice : Price) :
    (castString (productRecord productname imageurl openby opendate closedate startingprice
        .opendate)).bind (DateFormatter.date zone) = DateFormatter.date zone opendate ∧
      (castString (productRecord productname imageurl openby opendate closedate startingprice
        .closedate)).bind (DateFormatter.date zone) = DateFormatter.date zone closedate :=
  ⟨rfl, rfl⟩

/-- The dates of an item, when those of the record are known. -/
theorem AuctionItem.decode_dates {zone : TimeZone} {now : Date} {key : Key}
    {pairs record : ProductRecord} {item : AuctionItem}
    (hopendate : pairs .opendate = record .opendate)
    (hclosedate : pairs .closedate = record .closedate)
    (hopened : (castString (record .opendate)).bind (DateFormatter.date zone) = some opened)
    (hclosed : (castString (record .closedate)).bind (DateFormatter.date zone) = some closed)
    (h : AuctionItem.decode zone now key pairs = some item) :
    item.openDate = opened ∧ item.closeDate = closed ∧
      item.isnotClosed = Date.isBetween now opened closed := by
  have hitem := AuctionItem.decode_readFrom h
  obtain ⟨opentext, hopentext, hopen⟩ := hitem.opendate
  obtain ⟨closetext, hclosetext, hclose⟩ := hitem.closedate
  rw [← hopendate, hopentext] at hopened
  rw [← hclosedate, hclosetext] at hclosed
  obtain rfl := Option.some.inj (hopen.symm.trans hopened)
  obtain rfl := Option.some.inj (hclose.symm.trans hclosed)
  exact ⟨rfl, rfl, hitem.isnotClosed⟩

/-- A record is open until the chosen date exactly when its opening date is not
after the submission nor its closing date before that date. -/
theorem openUntilClosing_iff_dates {zone : TimeZone} {record : ProductRecord}
    (hcomplete : record.Complete)
    (hopened : (castString (record .opendate)).bind (DateFormatter.date zone) = some opened)
    (hclosed : (castString (record .closedate)).bind (DateFormatter.date zone) = some closed)
    (hclosing : submitted ≤ closing) :
    OpenUntilClosing zone submitted closing record ↔ opened ≤ submitted ∧ closing ≤ closed := by
  constructor
  · intro hopen
    obtain ⟨opened', hopened', closed', hclosed', hordered⟩ := hopen.ordered
    obtain rfl := Option.some.inj (hopened.symm.trans hopened')
    obtain rfl := Option.some.inj (hclosed.symm.trans hclosed')
    have hbetween : ∀ now, submitted ≤ now → now ≤ closing → opened ≤ now ∧ now ≤ closed := by
      intro now hlow hhigh
      have hdates : record.DatesIn zone := ⟨by simp [hopened], by simp [hclosed]⟩
      have hdecodes : (AuctionItem.decode zone now 0 record).isSome :=
        hcomplete.decode_isSome hdates
      obtain ⟨item, hitem⟩ := Option.isSome_iff_exists.mp hdecodes
      obtain ⟨_, _, hnotClosed⟩ := AuctionItem.decode_dates rfl rfl hopened hclosed hitem
      rw [hopen.listed now hlow hhigh 0 record item rfl rfl hitem] at hnotClosed
      have hrange := Date.isBetween_eq_true.mp hnotClosed.symm
      rwa [min_eq_left hordered, max_eq_right hordered] at hrange
    exact ⟨(hbetween submitted le_rfl hclosing).1, (hbetween closing hclosing le_rfl).2⟩
  · rintro ⟨hlow, hhigh⟩
    have hordered : opened ≤ closed := hlow.trans (hclosing.trans hhigh)
    have hbetween : ∀ now, submitted ≤ now → now ≤ closing →
        Date.isBetween now opened closed = true := by
      intro now hsubmitted hnow
      rw [Date.isBetween_eq_true, min_eq_left hordered, max_eq_right hordered]
      exact ⟨hlow.trans hsubmitted, hnow.trans hhigh⟩
    refine ⟨⟨opened, hopened, closed, hclosed, hordered⟩, ?_, ?_⟩
    · intro now hsubmitted hnow key pairs item hopendate hclosedate hdecode
      obtain ⟨_, _, hnotClosed⟩ :=
        AuctionItem.decode_dates hopendate hclosedate hopened hclosed hdecode
      rw [hnotClosed, hbetween now hsubmitted hnow]
    · intro read now hsubmitted hnow key pairs item price hopendate hclosedate hdecode
        signedIn minimumBid text hrefused
      obtain ⟨hopenDate, hcloseDate, _⟩ :=
        AuctionItem.decode_dates hopendate hclosedate hopened hclosed hdecode
      have houtside := HomeFeedDetailsViewController.bidSubmit_closed hrefused
      simp only [hopenDate, hcloseDate, hbetween now hsubmitted hnow] at houtside
      cases houtside

/-- A closing date that is not before a minute in the year 1 or later is in the
year 1 or later. -/
theorem one_le_year_closing (hyear : 1 ≤ (fieldsAt (TimeZone.fixed offset) later).date.year)
    (hlater : 60 * (later.minute : Date) ≤ submitted) (hclosing : submitted ≤ closing) :
    1 ≤ (fieldsAt (TimeZone.fixed offset) closing).date.year := by
  have hminute : later.minute ≤ closing.minute :=
    Date.minute_le_of_le (hlater.trans hclosing)
  rw [one_le_year_fixed] at hyear ⊢
  omega

/-- An accepted auction is open until the chosen closing date exactly when that
date and the second reading of the clock are on the minute. -/
theorem open_until_closing_iff (offset : ℤ) (form : Form) (signedIn : Option String)
    (submitted later : Date) (record : ProductRecord) (hclock : submitted ≤ later)
    (hcreate : submitAuction (TimeZone.fixed offset) form signedIn submitted later =
      some (.create record)) :
    OpenUntilClosing (TimeZone.fixed offset) submitted form.closingDate record ↔
      OnTheMinute (TimeZone.fixed offset) submitted form.closingDate later := by
  obtain ⟨userName, price, _, hclosing, hrecord⟩ := submitAuction_create hcreate
  have hcomplete : record.Complete := hrecord ▸ productRecord_complete _ _ _ _ _ _
  obtain ⟨hopendate, hclosedate⟩ := productRecord_dates (TimeZone.fixed offset) form.itemName
    form.returnedImageUrl userName (DateFormatter.string (TimeZone.fixed offset) later)
    (DateFormatter.string (TimeZone.fixed offset) form.closingDate) price
  rw [← hrecord] at hopendate hclosedate
  constructor
  · intro hopen
    obtain ⟨opened, hopened, closed, hclosed, _⟩ := hopen.ordered
    obtain ⟨hlow, hhigh⟩ :=
      (openUntilClosing_iff_dates hcomplete hopened hclosed hclosing).mp hopen
    have hread : DateFormatter.date _ _ = some opened := hopendate.symm.trans hopened
    have hread' : DateFormatter.date _ _ = some closed := hclosedate.symm.trans hclosed
    have hyear : 1 ≤ (fieldsAt (TimeZone.fixed offset) later).date.year := by
      have hfirst := (firstDay_le_decoded hread).trans (hlow.trans hclock)
      rw [one_le_year_fixed]
      have hminute : Civil.firstDay * 1440 - offset ≤ later.minute := by
        refine Int.le_floor.mpr ?_
        linarith
      omega
    have hopened' : opened = 60 * (later.minute : Date) :=
      Option.some.inj (hread.symm.trans (decodes_fixed hyear))
    rw [hopened'] at hlow
    have hyear' := one_le_year_closing hyear hlow hclosing
    have hclosed' : closed = 60 * (form.closingDate.minute : Date) :=
      Option.some.inj (hread'.symm.trans (decodes_fixed hyear'))
    rw [hclosed'] at hhigh
    exact ⟨hyear, hhigh.antisymm (Date.minute_le _), hlow⟩
  · rintro ⟨hyear, hminute, hlater⟩
    have hyear' := one_le_year_closing hyear hlater hclosing
    exact (openUntilClosing_iff_dates hcomplete (hopendate.trans (decodes_fixed hyear))
      (hclosedate.trans (decodes_fixed hyear')) hclosing).mpr ⟨hlater, hminute.le⟩

/-- A lamp with the given closing date. -/
def lampForm (closingDate : Date) : Form :=
  { Form.fresh 0 with
    itemName := "Lamp", startingPrice := "10", closingDate
    didUploadImage := true, returnedImageUrl := "https://host/lamp.jpg" }

theorem lampForm_accepted (zone : TimeZone) (now later closingDate : Date)
    (hclosing : now ≤ closingDate) :
    submitAuction zone (lampForm closingDate) (some "sue") now later =
      some (.create (productRecord "Lamp" "https://host/lamp.jpg" "sue"
        (DateFormatter.string zone later) (DateFormatter.string zone closingDate) 10)) :=
  submitAuction_eq_create rfl (by simp [lampForm]) (by simp [lampForm]) hclosing
    (show Double.ofText "10" = some (.finite 10) by decide +kernel)

/-- 24 January 2022, 3:00 PM to 4:00 PM, eight hours ahead of Greenwich. -/
theorem open_until_closing_of_whole_minutes :
    ∃ record, submitAuction (TimeZone.fixed 480) (lampForm 1643011200) (some "sue")
        1643007600 1643007600 = some (.create record) ∧
      OpenUntilClosing (TimeZone.fixed 480) 1643007600 1643011200 record := by
  have hcreate := lampForm_accepted (TimeZone.fixed 480) 1643007600 1643007600 1643011200
    (by norm_num)
  refine ⟨_, hcreate, ?_⟩
  exact (open_until_closing_iff 480 (lampForm 1643011200) _ _ _ _ le_rfl hcreate).mpr
    ⟨by decide +kernel, by decide +kernel, by decide +kernel⟩

/-- The picker appears 30 seconds past the hour and is turned to one hour later;
the auction closes on that hour. -/
theorem not_open_until_closing :
    ¬ ∀ (offset : ℤ) (form : Form) (signedIn : Option String) (submitted later : Date)
      (record : ProductRecord), submitted ≤ later →
      submitAuction (TimeZone.fixed offset) form signedIn submitted later =
        some (.create record) →
      OpenUntilClosing (TimeZone.fixed offset) submitted form.closingDate record := by
  intro hopens
  have hcreate := lampForm_accepted (TimeZone.fixed 480) 1643007640 1643007640 1643011230
    (by norm_num)
  have hopen := hopens 480 (lampForm 1643011230) _ _ _ _ le_rfl hcreate
  obtain ⟨hopened, hclosed⟩ := productRecord_dates (TimeZone.fixed 480) "Lamp"
    "https://host/lamp.jpg" "sue" (DateFormatter.string (TimeZone.fixed 480) 1643007640)
    (DateFormatter.string (TimeZone.fixed 480) 1643011230) 10
  have hread : DateFormatter.date (TimeZone.fixed 480)
      (DateFormatter.string (TimeZone.fixed 480) 1643007640) = some 1643007600 := by
    decide +kernel
  have hread' : DateFormatter.date (TimeZone.fixed 480)
      (DateFormatter.string (TimeZone.fixed 480) 1643011230) = some 1643011200 := by
    decide +kernel
  have hlate := ((openUntilClosing_iff_dates (productRecord_complete _ _ _ _ _ _)
    (hopened.trans hread) (hclosed.trans hread') (by decide +kernel)).mp hopen).2
  exact absurd hlate (by decide +kernel)

end Auctioneer
