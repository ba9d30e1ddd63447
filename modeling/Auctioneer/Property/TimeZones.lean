import Auctioneer.Proof.Dates
import Auctioneer.Proof.Items

/-!
Dates between devices. Each prints and reads the local civil time of its own
zone, so two devices agree on an instant when their clocks do.
-/

namespace Auctioneer

open DateFormatter

/-- The reader gets back the minute that the writer meant. -/
def Decodes (writer reader : TimeZone) (d : Date) : Prop :=
  DateFormatter.date reader (DateFormatter.string writer d) = some (60 * (d.minute : Date))

/-- The civil time that the writer prints exists without its era, and the
reader's formatter takes it for the same minute. -/
def SameMinute (writer reader : TimeZone) (d : Date) : Prop :=
  (fieldsAt writer d).printed.date.Valid ∧
    reader.resolve (localMinuteOf (fieldsAt writer d).printed) = some d.minute

instance (writer reader : TimeZone) (d : Date) : Decidable (SameMinute writer reader d) :=
  inferInstanceAs (Decidable (_ ∧ _))

/-- From the year 1 on, the reader takes the writer's local time for the same
minute. -/
theorem sameMinute_iff_of_year {writer reader : TimeZone} {d : Date}
    (hyear : 1 ≤ (fieldsAt writer d).date.year) :
    SameMinute writer reader d ↔
      reader.resolve (d.minute + writer.offset d.minute) = some d.minute := by
  have hvalid : (fieldsAt writer d).date.Valid := Civil.ofDay_valid _
  rw [SameMinute, Fields.printed_of_year hyear, fieldsAt, localMinuteOf_fieldsOf]
  exact and_iff_right hvalid

theorem decodes_iff (writer reader : TimeZone) (d : Date) :
    Decodes writer reader d ↔ SameMinute writer reader d := by
  rw [Decodes, SameMinute, date_string]
  split
  · next hvalid =>
    simp only [hvalid, true_and, Option.map_eq_some_iff]
    constructor
    · rintro ⟨minute, hminute, heq⟩
      have hcast : (minute : Date) = d.minute := by linarith
      rwa [Int.cast_injective hcast] at hminute
    · intro hminute
      exact ⟨d.minute, hminute, rfl⟩
  · next hvalid => simp [hvalid]

/-- Two readers of one record that get back both dates as the writer meant them
agree on whether the auction is closed. -/
theorem isnotClosed_eq {writer reader reader' : TimeZone} {opened closed now : Date} {key : Key}
    {pairs : ProductRecord} {item item' : AuctionItem}
    (hopendate : pairs .opendate = some (.string (DateFormatter.string writer opened)))
    (hclosedate : pairs .closedate = some (.string (DateFormatter.string writer closed)))
    (hread : Decodes writer reader opened ∧ Decodes writer reader closed)
    (hread' : Decodes writer reader' opened ∧ Decodes writer reader' closed)
    (h : AuctionItem.decode reader now key pairs = some item)
    (h' : AuctionItem.decode reader' now key pairs = some item') :
    item.isnotClosed = item'.isnotClosed := by
  have hdates : ∀ {zone : TimeZone} {item : AuctionItem},
      Decodes writer zone opened ∧ Decodes writer zone closed →
      AuctionItem.decode zone now key pairs = some item →
      item.openDate = 60 * (opened.minute : Date) ∧ item.closeDate = 60 * (closed.minute : Date) ∧
        item.isnotClosed = Date.isBetween now item.openDate item.closeDate := by
    rintro zone item ⟨hopened, hclosed⟩ hdecode
    have hitem := AuctionItem.decode_readFrom hdecode
    obtain ⟨opentext, hopentext, hopen⟩ := hitem.opendate
    obtain ⟨closetext, hclosetext, hclose⟩ := hitem.closedate
    obtain rfl := Value.string.inj (Option.some.inj (hopendate.symm.trans hopentext))
    obtain rfl := Value.string.inj (Option.some.inj (hclosedate.symm.trans hclosetext))
    exact ⟨Option.some.inj (hopen.symm.trans hopened), Option.some.inj (hclose.symm.trans hclosed),
      hitem.isnotClosed⟩
  obtain ⟨hopen, hclose, hclosed⟩ := hdates hread h
  obtain ⟨hopen', hclose', hclosed'⟩ := hdates hread' h'
  rw [hclosed, hclosed', hopen, hclose, hopen', hclose']

/-- A reader gets back what the writer meant exactly when it takes the civil
time for the same minute, and readers that do agree on what is closed. -/
theorem closing_times_agree (writer reader : TimeZone) (d : Date) :
    (Decodes writer reader d ↔ SameMinute writer reader d) ∧
    ∀ (reader' : TimeZone) (opened now : Date) (key : Key) (pairs : ProductRecord)
      (item item' : AuctionItem),
      pairs .opendate = some (.string (DateFormatter.string writer opened)) →
      pairs .closedate = some (.string (DateFormatter.string writer d)) →
      SameMinute writer reader opened ∧ SameMinute writer reader d →
      SameMinute writer reader' opened ∧ SameMinute writer reader' d →
      AuctionItem.decode reader now key pairs = some item →
      AuctionItem.decode reader' now key pairs = some item' →
      item.isnotClosed = item'.isnotClosed := by
  refine ⟨decodes_iff writer reader d, ?_⟩
  intro reader' opened now key pairs item item' hopendate hclosedate hread hread' h h'
  have hsame := hread.imp (decodes_iff _ _ _).mpr (decodes_iff _ _ _).mpr
  have hsame' := hread'.imp (decodes_iff _ _ _).mpr (decodes_iff _ _ _).mpr
  exact isnotClosed_eq hopendate hclosedate hsame hsame' h h'

/-- Two devices whose clocks are eight hours ahead of Greenwich. -/
theorem closing_times_agree_in_one_zone :
    Decodes (TimeZone.fixed 480) (TimeZone.fixed 480) 1643011230 :=
  (closing_times_agree (TimeZone.fixed 480) (TimeZone.fixed 480) 1643011230).1.mpr
    (by decide +kernel)

/-- Three o'clock there is another three o'clock in Greenwich. -/
theorem not_closing_times_agree :
    ¬ ∀ (writer reader : TimeZone) (d : Date), Decodes writer reader d := by
  intro hdecodes
  have hread := hdecodes (TimeZone.fixed 480) (TimeZone.fixed 0) 1643007600
  have hlater : DateFormatter.date (TimeZone.fixed 0)
      (DateFormatter.string (TimeZone.fixed 480) 1643007600) = some 1643036400 := by
    decide +kernel
  rw [Decodes, hlater] at hread
  exact absurd hread (by decide +kernel)

end Auctioneer
