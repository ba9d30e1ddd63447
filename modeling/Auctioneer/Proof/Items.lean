import Auctioneer.Library.Traverse
import Auctioneer.Model.AuctionItem

/-!
What an item says about the record it was decoded from, and which items the
list callbacks keep.
-/

namespace Auctioneer

variable {zone : TimeZone} {now : Date} {key : Key} {pairs : ProductRecord}
  {item : AuctionItem} {snapshot : Database} {items : List AuctionItem}

/-- The fields of a record that a bid does not write, as an item shows them. -/
structure AuctionItem.Describes (zone : TimeZone) (pairs : ProductRecord)
    (item : AuctionItem) : Prop where
  openby : pairs .openby = some (.string item.openedBy)
  opendate : ∃ text, pairs .opendate = some (.string text) ∧
    DateFormatter.date zone text = some item.openDate
  closedate : ∃ text, pairs .closedate = some (.string text) ∧
    DateFormatter.date zone text = some item.closeDate
  startingprice : pairs .startingprice = some (.number item.startingPrice)

/-- An item as decoded from a record at `now`, field by field. -/
structure AuctionItem.ReadFrom (zone : TimeZone) (now : Date) (key : Key)
    (pairs : ProductRecord) (item : AuctionItem) : Prop
    extends AuctionItem.Describes zone pairs item where
  productname : pairs .productname = some (.string item.productName)
  imageurl : pairs .imageurl = some (.string item.imageUrl)
  highestbidprice : ∃ value, pairs .highestbidprice = some value ∧
    value.described = some item.highestBidPrice
  highestbidder : pairs .highestbidder = some (.string item.highestBidder)
  uniqueKey : item.uniqueKey = key
  isnotClosed : item.isnotClosed = Date.isBetween now item.openDate item.closeDate

theorem AuctionItem.decode_readFrom
    (h : AuctionItem.decode zone now key pairs = some item) :
    item.ReadFrom zone now key pairs := by
  simp only [AuctionItem.decode, Option.bind_eq_bind, Option.bind_eq_some_iff,
    castString_eq_some, castDouble_eq_some] at h
  obtain ⟨_, hname, _, himage, _, hopenby, opentext, hopendate, _, hopen, closetext, hclosedate,
    _, hclose, _, hstarting, _, ⟨value, hprice, hdescribed⟩, _, hbidder, hitem⟩ := h
  obtain rfl := Option.some.inj hitem
  exact
    { openby := hopenby
      opendate := ⟨opentext, hopendate, hopen⟩
      closedate := ⟨closetext, hclosedate, hclose⟩
      startingprice := hstarting
      productname := hname
      imageurl := himage
      highestbidprice := ⟨value, hprice, hdescribed⟩
      highestbidder := hbidder
      uniqueKey := rfl
      isnotClosed := rfl }

/-- The auction of the record is over at `now`. -/
def ProductRecord.ClosedAt (zone : TimeZone) (now : Date) (record : ProductRecord) : Prop :=
  ∃ opendate ∈ (castString (record .opendate)).bind (DateFormatter.date zone),
    ∃ closedate ∈ (castString (record .closedate)).bind (DateFormatter.date zone),
      Date.isBetween now opendate closedate = false

instance (zone : TimeZone) (now : Date) (record : ProductRecord) :
    Decidable (record.ClosedAt zone now) :=
  inferInstanceAs (Decidable (∃ opendate ∈ _, _))

theorem AuctionItem.ReadFrom.closedAt_iff (h : item.ReadFrom zone now key pairs) :
    pairs.ClosedAt zone now ↔ item.isnotClosed = false := by
  obtain ⟨opentext, hopentext, hopen⟩ := h.opendate
  obtain ⟨closetext, hclosetext, hclose⟩ := h.closedate
  simp [ProductRecord.ClosedAt, castString_eq_some.mpr hopentext,
    castString_eq_some.mpr hclosetext, hopen, hclose, h.isnotClosed]

/-- Both dates of the record are dates in the zone. -/
def ProductRecord.DatesIn (zone : TimeZone) (record : ProductRecord) : Prop :=
  ((castString (record .opendate)).bind (DateFormatter.date zone)).isSome ∧
    ((castString (record .closedate)).bind (DateFormatter.date zone)).isSome

instance (zone : TimeZone) (record : ProductRecord) : Decidable (record.DatesIn zone) :=
  inferInstanceAs (Decidable (_ ∧ _))

/-- Every field of the record is there and of the type that the decoders cast
it to. -/
structure ProductRecord.Complete (record : ProductRecord) : Prop where
  productname : (castString (record .productname)).isSome
  imageurl : (castString (record .imageurl)).isSome
  openby : (castString (record .openby)).isSome
  opendate : (castString (record .opendate)).isSome
  closedate : (castString (record .closedate)).isSome
  startingprice : (castDouble (record .startingprice)).isSome
  highestbidprice : (castDouble (record .highestbidprice)).isSome
  highestbidder : (castString (record .highestbidder)).isSome

theorem ProductRecord.Complete.isSome (h : pairs.Complete) (field : ProductField) :
    (pairs field).isSome := by
  have hbind : ∀ {α : Type} {value : Option Value} {cast : Value → Option α},
      (value.bind cast).isSome → value.isSome := by
    rintro _ (_ | _) _ hcast
    · cases hcast
    · rfl
  cases field with
  | productname => exact hbind h.productname
  | imageurl => exact hbind h.imageurl
  | openby => exact hbind h.openby
  | opendate => exact hbind h.opendate
  | closedate => exact hbind h.closedate
  | startingprice => exact hbind h.startingprice
  | highestbidprice => exact hbind h.highestbidprice
  | highestbidder => exact hbind h.highestbidder

/-- A complete record decodes where its dates are dates. -/
theorem ProductRecord.Complete.decode_isSome (h : pairs.Complete)
    (hdates : pairs.DatesIn zone) : (AuctionItem.decode zone now key pairs).isSome := by
  obtain ⟨productname, hproductname⟩ := Option.isSome_iff_exists.mp h.productname
  obtain ⟨imageurl, himageurl⟩ := Option.isSome_iff_exists.mp h.imageurl
  obtain ⟨openby, hopenby⟩ := Option.isSome_iff_exists.mp h.openby
  obtain ⟨opendate, hopendate⟩ := Option.isSome_iff_exists.mp hdates.1
  obtain ⟨opened, hopened, hopendate⟩ := Option.bind_eq_some_iff.mp hopendate
  obtain ⟨closedate, hclosedate⟩ := Option.isSome_iff_exists.mp hdates.2
  obtain ⟨closed, hclosed, hclosedate⟩ := Option.bind_eq_some_iff.mp hclosedate
  obtain ⟨starting, hstarting⟩ := Option.isSome_iff_exists.mp h.startingprice
  obtain ⟨price, hprice⟩ := Option.isSome_iff_exists.mp h.highestbidprice
  obtain ⟨bidder, hbidder⟩ := Option.isSome_iff_exists.mp h.highestbidder
  have hdescribed : (pairs .highestbidprice).bind Value.described = some price := by
    rw [castDouble_eq_some.mp hprice]
    rfl
  simp only [AuctionItem.decode, hproductname, himageurl, hopenby, hopened, hopendate,
    hclosed, hclosedate, hstarting, hdescribed, hbidder, Option.bind_eq_bind,
    Option.bind_some, Option.isSome_some]

theorem AuctionItem.ReadFrom.datesIn (h : item.ReadFrom zone now key pairs) :
    pairs.DatesIn zone := by
  obtain ⟨opentext, hopentext, hopen⟩ := h.opendate
  obtain ⟨closetext, hclosetext, hclose⟩ := h.closedate
  simp [ProductRecord.DatesIn, castString_eq_some.mpr hopentext,
    castString_eq_some.mpr hclosetext, hopen, hclose]

theorem mem_entries_iff {Record : Type} {table : Table Record} {key : Key} {record : Record} :
    (⟨key, record⟩ : Sigma fun _ : Key => Record) ∈ table.entries ↔
      table.lookup key = some record :=
  AList.mem_lookup_iff.symm

/-- Each decoded item is that of one record of the snapshot. -/
theorem exists_of_mem_decodeProducts (h : decodeProducts zone now snapshot = some items)
    (hitem : item ∈ items) :
    ∃ pairs, snapshot.products.lookup item.uniqueKey = some pairs ∧
      item.ReadFrom zone now item.uniqueKey pairs := by
  obtain ⟨⟨key, pairs⟩, hentry, hdecode⟩ := Traverse.exists_of_mem h hitem
  have hread := AuctionItem.decode_readFrom hdecode
  have hkey : item.uniqueKey = key := hread.uniqueKey
  subst hkey
  exact ⟨pairs, mem_entries_iff.mp hentry, hread⟩

/-- Each record of a snapshot that decodes has its item. -/
theorem exists_mem_of_lookup (h : decodeProducts zone now snapshot = some items)
    (hlookup : snapshot.products.lookup key = some pairs) :
    ∃ item ∈ items, item.ReadFrom zone now key pairs := by
  obtain ⟨item, hitem, hdecode⟩ := Traverse.mem_of_mem h (mem_entries_iff.mpr hlookup)
  exact ⟨item, hitem, AuctionItem.decode_readFrom hdecode⟩

/-- A snapshot of complete records decodes exactly where all their dates are
dates. -/
theorem decodeProducts_isSome_iff
    (hcomplete : ∀ key pairs, snapshot.products.lookup key = some pairs → pairs.Complete) :
    (decodeProducts zone now snapshot).isSome ↔
      ∀ key pairs, snapshot.products.lookup key = some pairs → pairs.DatesIn zone := by
  constructor
  · intro hdecodes key pairs hlookup
    obtain ⟨items, hitems⟩ := Option.isSome_iff_exists.mp hdecodes
    obtain ⟨item, _, hread⟩ := exists_mem_of_lookup hitems hlookup
    exact hread.datesIn
  · intro hdates
    refine Traverse.isSome_of_forall ?_
    rintro ⟨key, pairs⟩ hentry
    have hlookup := mem_entries_iff.mp hentry
    exact (hcomplete key pairs hlookup).decode_isSome (hdates key pairs hlookup)

theorem keepFor_eq_some {signedIn : Option String} {keep : String → AuctionItem → Bool}
    {kept : List AuctionItem} (h : keepFor signedIn keep items = some kept)
    (hitem : item ∈ kept) :
    item ∈ items ∧ ∃ userName, signedIn = some userName ∧ keep userName item = true := by
  cases signedIn with
  | some userName =>
      simp only [keepFor, Option.some.injEq] at h
      rw [← h, List.mem_filter] at hitem
      exact ⟨hitem.1, userName, rfl, hitem.2⟩
  | none =>
      simp only [keepFor, Option.ite_none_right_eq_some, Option.some.injEq] at h
      rw [← h.2] at hitem
      cases hitem

theorem HomeFeedViewController.mem_of_retrieveData
    (h : HomeFeedViewController.retrieveData zone now snapshot = some items)
    (hitem : item ∈ items) :
    ∃ dictionary, decodeProducts zone now snapshot = some dictionary ∧ item ∈ dictionary := by
  simp only [HomeFeedViewController.retrieveData, Option.bind_eq_bind,
    Option.bind_eq_some_iff, Option.some.injEq] at h
  obtain ⟨dictionary, hdictionary, rfl⟩ := h
  exact ⟨dictionary, hdictionary, (List.mem_filter.mp hitem).1⟩

theorem YourListingViewController.mem_of_retrieveData {signedIn : Option String}
    (h : YourListingViewController.retrieveData zone now signedIn snapshot = some items)
    (hitem : item ∈ items) :
    (∃ dictionary, decodeProducts zone now snapshot = some dictionary ∧ item ∈ dictionary) ∧
      signedIn = some item.openedBy := by
  simp only [YourListingViewController.retrieveData, Option.bind_eq_bind,
    Option.bind_eq_some_iff] at h
  obtain ⟨dictionary, hdictionary, hkept⟩ := h
  obtain ⟨hmem, userName, huser, hkeeps⟩ := keepFor_eq_some hkept hitem
  refine ⟨⟨dictionary, hdictionary, hmem⟩, ?_⟩
  rw [huser, of_decide_eq_true hkeeps]

theorem AuctionWonViewController.mem_of_retrieveData {signedIn : Option String}
    (h : AuctionWonViewController.retrieveData zone now signedIn snapshot = some items)
    (hitem : item ∈ items) :
    (∃ dictionary, decodeProducts zone now snapshot = some dictionary ∧ item ∈ dictionary) ∧
      signedIn = some item.highestBidder ∧ item.isnotClosed = false := by
  simp only [AuctionWonViewController.retrieveData, Option.bind_eq_bind,
    Option.bind_eq_some_iff] at h
  obtain ⟨dictionary, hdictionary, hkept⟩ := h
  obtain ⟨hmem, userName, huser, hkeeps⟩ := keepFor_eq_some hkept hitem
  simp only [AuctionWonViewController.keeps, Bool.and_eq_true, decide_eq_true_eq,
    Bool.not_eq_true'] at hkeeps
  exact ⟨⟨dictionary, hdictionary, hmem⟩, by rw [huser, hkeeps.1], hkeeps.2⟩

namespace AuctionItem

/-- The clock has passed both dates of the item. -/
def Ended (now : Date) (item : AuctionItem) : Prop := max item.openDate item.closeDate < now

instance (now : Date) (item : AuctionItem) : Decidable (item.Ended now) :=
  inferInstanceAs (Decidable (_ < _))

variable {item : AuctionItem} {now now' : Date}

theorem Ended.mono (h : item.Ended now) (hle : now ≤ now') : item.Ended now' := h.trans_le hle

/-- An auction that has ended is open at no later time. -/
theorem Ended.not_isBetween (h : item.Ended now) :
    Date.isBetween now item.openDate item.closeDate ≠ true := by
  intro hopen
  exact absurd (Date.isBetween_eq_true.mp hopen).2 (not_le.mpr h)

/-- A closed auction that has been open has ended. -/
theorem ended_of_not_isBetween (hbegun : min item.openDate item.closeDate ≤ now)
    (hclosed : Date.isBetween now item.openDate item.closeDate = false) : item.Ended now := by
  by_contra hnot
  have hopen := Date.isBetween_eq_true.mpr ⟨hbegun, not_lt.mp hnot⟩
  rw [hclosed] at hopen
  cases hopen

end AuctionItem

end Auctioneer
