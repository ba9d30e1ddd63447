import Auctioneer.Library.Origin
import Auctioneer.Proof.Provenance

/-!
What can stand in the database. A key is created once; every stored field was
written by one issued write, so that the fields no bid writes never change; and
a user keeps the name of the sign-up.
-/

namespace Auctioneer

/-- The key of the record that a write creates whole. -/
def Issue.creates (issue : Issue) : Option Key :=
  match issue.write with
  | .setProduct key _ => some key
  | .setUser key _ => some key
  | _ => none

/-- The value that a write gives to a field of a product. -/
def Issue.Sets (issue : Issue) (cell : Key × ProductField) (value : Value) : Prop :=
  match issue.write with
  | .setProduct key record => cell.1 = key ∧ record cell.2 = some value
  | .setProductField key field new => cell = (key, field) ∧ value = new
  | _ => False

instance (cell : Key × ProductField) (value : Value) :
    (issue : Issue) → Decidable (issue.Sets cell value)
  | ⟨.setProduct key record, _⟩ =>
      inferInstanceAs (Decidable (cell.1 = key ∧ record cell.2 = some value))
  | ⟨.setProductField key field new, _⟩ =>
      inferInstanceAs (Decidable (cell = (key, field) ∧ value = new))
  | ⟨.removeProduct _, _⟩ | ⟨.setUser _ _, _⟩ | ⟨.updateUser _ _ _, _⟩ => isFalse id

/-- The product that a write of a bid is about. -/
def Issue.bidKey (issue : Issue) : Option Key :=
  match issue.write with
  | .setProductField key _ _ => some key
  | _ => none

/-- The product that a write removes. -/
def Issue.removedKey (issue : Issue) : Option Key :=
  match issue.write with
  | .removeProduct key => some key
  | _ => none

/-- The price that a write gives to a product. -/
def Issue.priceOf (key : Key) (issue : Issue) : Option Price :=
  match issue.write with
  | .setProductField at' .highestbidprice (.number price) =>
      if at' = key then some price else none
  | _ => none

/-- The bidder that a write gives to a product. -/
def Issue.bidderOf (key : Key) (issue : Issue) : Option String :=
  match issue.write with
  | .setProductField at' .highestbidder (.string bidder) =>
      if at' = key then some bidder else none
  | _ => none

theorem Issue.bidKey_of_priceOf {issue : Issue} {key : Key} {price : Price}
    (h : issue.priceOf key = some price) : issue.bidKey = some key := by
  unfold priceOf at h
  split at h
  · next hwrite =>
    simp only [Option.ite_none_right_eq_some] at h
    simp [bidKey, hwrite, h.1]
  · cases h

namespace Database

def Holds (db : Database) (key : Key) : Prop :=
  (db.products.lookup key).isSome ∨ (db.users.lookup key).isSome

variable {db : Database} {key : Key}

@[simp] theorem productField_empty (field : ProductField) :
    Database.empty.productField key field = none := rfl

@[simp] theorem username_empty : Database.empty.username key = none := rfl

theorem not_holds_empty : ¬ Database.empty.Holds key := by
  rintro (h | h) <;> cases h

theorem productField_eq_some {field : ProductField} {value : Value} :
    db.productField key field = some value ↔
      ∃ record, db.products.lookup key = some record ∧ record field = some value :=
  Option.bind_eq_some_iff

theorem userField_eq_some {field : UserField} {value : Value} :
    db.userField key field = some value ↔
      ∃ record, db.users.lookup key = some record ∧ record field = some value :=
  Option.bind_eq_some_iff

theorem username_eq_some {name : String} :
    db.username key = some name ↔
      ∃ record, db.users.lookup key = some record ∧ record .Username = some (.string name) := by
  rw [username, castString_eq_some]
  exact userField_eq_some

theorem highestbidprice_eq_some {price : Price} :
    db.highestbidprice key = some price ↔
      db.productField key .highestbidprice = some (.number price) :=
  castDouble_eq_some

theorem highestbidder_eq_some {name : String} :
    db.highestbidder key = some name ↔
      db.productField key .highestbidder = some (.string name) :=
  castString_eq_some

theorem holds_of_productField {field : ProductField} {value : Value}
    (h : db.productField key field = some value) : db.Holds key := by
  obtain ⟨record, hrecord, _⟩ := productField_eq_some.mp h
  exact .inl (by simp [hrecord])

theorem holds_of_username {name : String} (h : db.username key = some name) :
    db.Holds key := by
  obtain ⟨record, hrecord, _⟩ := username_eq_some.mp h
  exact .inr (by simp [hrecord])

end Database

theorem AuctionItem.Sourced.holds {zone : TimeZone} {dbs : List Database} {item : AuctionItem}
    (h : item.Sourced zone dbs) : ∃ db ∈ dbs, db.Holds item.uniqueKey := by
  obtain ⟨db, hdb, record, hrecord, _⟩ := h
  exact ⟨db, hdb, .inl (by simp [hrecord])⟩

/-- A field after a write: what the write gives it, or what it was. -/
theorem Issue.sets_or_kept (issue : Issue) (db : Database) (cell : Key × ProductField)
    (value : Value) (h : (issue.apply db).productField cell.1 cell.2 = some value) :
    issue.Sets cell value ∨ db.productField cell.1 cell.2 = some value := by
  obtain ⟨key, field⟩ := cell
  obtain ⟨write, call⟩ := issue
  obtain ⟨record, hrecord, hvalue⟩ := Database.productField_eq_some.mp h
  cases write with
  | setProduct at' stored =>
      simp only [Issue.apply, Write.apply, Table.lookup_insert'] at hrecord
      split at hrecord
      · next heq =>
        obtain rfl := Option.some.inj hrecord
        exact .inl ⟨heq, hvalue⟩
      · exact .inr (Database.productField_eq_some.mpr ⟨record, hrecord, hvalue⟩)
  | setProductField at' written new =>
      simp only [Issue.apply, Write.apply, Table.lookup_setField] at hrecord
      split at hrecord
      · next heq =>
        obtain rfl := Option.some.inj hrecord
        subst heq
        by_cases hfield : field = written
        · subst hfield
          simp only [Function.update_self, Option.some.injEq] at hvalue
          exact .inl ⟨rfl, hvalue.symm⟩
        · rw [Function.update_of_ne hfield] at hvalue
          cases hlookup : db.products.lookup key with
          | none => simp [hlookup] at hvalue
          | some stored =>
              exact .inr (Database.productField_eq_some.mpr
                ⟨stored, hlookup, by simpa [hlookup] using hvalue⟩)
      · exact .inr (Database.productField_eq_some.mpr ⟨record, hrecord, hvalue⟩)
  | removeProduct at' =>
      simp only [Issue.apply, Write.apply, Table.lookup_erase',
        Option.ite_none_left_eq_some] at hrecord
      exact .inr (Database.productField_eq_some.mpr ⟨record, hrecord.2, hvalue⟩)
  | setUser => exact .inr h
  | updateUser => exact .inr h

/-- The record of a user after a write: what it was, or a new one, or the same
with one field changed. -/
theorem Issue.users_after (issue : Issue) (db : Database) (key : Key) :
    (issue.apply db).users.lookup key = db.users.lookup key ∨
    (∃ record, issue.write = .setUser key record ∧
      (issue.apply db).users.lookup key = some record) ∨
    ∃ field value, issue.write = .updateUser key field value ∧
      (issue.apply db).users.lookup key =
        some (Function.update ((db.users.lookup key).getD fun _ => none) field (some value)) := by
  obtain ⟨write, call⟩ := issue
  cases write with
  | setUser created record =>
      by_cases heq : key = created
      · subst heq
        exact .inr (.inl ⟨record, rfl, by simp [Issue.apply, Write.apply]⟩)
      · exact .inl (by simp [Issue.apply, Write.apply, heq])
  | updateUser updated field value =>
      by_cases heq : key = updated
      · subst heq
        exact .inr (.inr ⟨field, value, rfl, by
          simp [Issue.apply, Write.apply, Table.lookup_setField]⟩)
      · exact .inl (by simp [Issue.apply, Write.apply, Table.lookup_setField, heq])
  | _ => exact .inl rfl

/-- The value that a write gives to a field of a user. -/
def Issue.SetsUser (issue : Issue) (cell : Key × UserField) (value : Value) : Prop :=
  match issue.write with
  | .setUser key record => cell.1 = key ∧ record cell.2 = some value
  | .updateUser key field new => cell = (key, field) ∧ value = new
  | _ => False

theorem Issue.setsUser_or_kept (issue : Issue) (db : Database) (cell : Key × UserField)
    (value : Value) (h : (issue.apply db).userField cell.1 cell.2 = some value) :
    issue.SetsUser cell value ∨ db.userField cell.1 cell.2 = some value := by
  obtain ⟨key, field⟩ := cell
  obtain ⟨record, hrecord, hvalue⟩ := Database.userField_eq_some.mp h
  rcases issue.users_after db key with hsame | ⟨_, hwrite, hnew⟩ | ⟨written, new, hwrite, hnew⟩
  · exact .inr (Database.userField_eq_some.mpr ⟨record, hsame.symm.trans hrecord, hvalue⟩)
  · obtain rfl := Option.some.inj (hnew.symm.trans hrecord)
    exact .inl (by simpa [SetsUser, hwrite] using hvalue)
  · obtain rfl := Option.some.inj (hnew.symm.trans hrecord)
    by_cases hfield : field = written
    · subst hfield
      exact .inl (by simpa [SetsUser, hwrite] using hvalue.symm)
    · rw [Function.update_of_ne hfield] at hvalue
      cases hlookup : db.users.lookup key with
      | none => simp [hlookup] at hvalue
      | some old =>
          exact .inr (Database.userField_eq_some.mpr
            ⟨old, hlookup, by simpa [hlookup] using hvalue⟩)

theorem Issue.Backed.of_setUser {world : World} {dbs : List Database} {issue : Issue}
    (h : issue.Backed world dbs) {key : Key} {record : UserRecord}
    (hwrite : issue.write = .setUser key record) :
    ∃ username password, record = SignUpViewController.userRecord username password := by
  cases h with
  | signUp _ username password => exact ⟨username, password, (Write.setUser.inj hwrite).2.symm⟩
  | bid _ _ _ _ _ _ _ _ hbid =>
      rcases HomeFeedDetailsViewController.mem_bidIssues.mp hbid with rfl | rfl <;> cases hwrite
  | _ => cases hwrite

/-- An update of a user is of one that has been there, and keeps the name and
the password. -/
theorem Issue.Backed.of_updateUser {world : World} {dbs : List Database} {issue : Issue}
    (h : issue.Backed world dbs) {key : Key} {field : UserField} {value : Value}
    (hwrite : issue.write = .updateUser key field value) :
    (∃ db ∈ dbs, ∃ name, db.username key = some name) ∧ field ≠ .Username ∧
      field ≠ .Password := by
  cases h with
  | task _ _ _ _ name db hdb hname hfield hpassword =>
      obtain ⟨rfl, rfl, rfl⟩ := Write.updateUser.inj hwrite
      exact ⟨⟨db, hdb, name, hname⟩, hfield, hpassword⟩
  | bid _ _ _ _ _ _ _ _ hbid =>
      rcases HomeFeedDetailsViewController.mem_bidIssues.mp hbid with rfl | rfl <;> cases hwrite
  | _ => cases hwrite

/-- A key held after a write was held before, or is one that the write was
about when it was issued, or is created by it. -/
theorem Issue.Backed.holds {world : World} {dbs : List Database} {issue : Issue}
    (h : issue.Backed world dbs) {db : Database} (hdb : db ∈ dbs) {key : Key}
    (hholds : (issue.apply db).Holds key) :
    (∃ earlier ∈ dbs, earlier.Holds key) ∨ issue.creates = some key := by
  cases h with
  | auction _ created =>
      simp only [Database.Holds, Issue.apply, Write.apply, Table.lookup_insert'] at hholds
      by_cases heq : key = created
      · exact .inr (by rw [heq]; rfl)
      · exact .inl ⟨db, hdb, by simpa [Database.Holds, heq] using hholds⟩
  | signUp created =>
      simp only [Database.Holds, Issue.apply, Write.apply, Table.lookup_insert'] at hholds
      by_cases heq : key = created
      · exact .inr (by rw [heq]; rfl)
      · exact .inl ⟨db, hdb, by simpa [Database.Holds, heq] using hholds⟩
  | bid _ item amount bidder _ hitem _ _ hissue =>
      left
      by_cases heq : key = item.uniqueKey
      · rw [heq]
        exact hitem.holds
      · refine ⟨db, hdb, ?_⟩
        rcases HomeFeedDetailsViewController.mem_bidIssues.mp hissue with rfl | rfl <;>
          simpa [Database.Holds, Issue.apply, Write.apply, Table.lookup_setField, heq,
            HomeFeedDetailsViewController.priceIssue,
            HomeFeedDetailsViewController.bidderIssue] using hholds
  | delete _ item =>
      left
      refine ⟨db, hdb, ?_⟩
      simp only [Database.Holds, Issue.apply, Write.apply, Table.lookup_erase'] at hholds
      rcases hholds with hproduct | huser
      · split at hproduct
        · cases hproduct
        · exact .inl hproduct
      · exact .inr huser
  | task updated field value author name source hsource hname =>
      left
      by_cases heq : key = updated
      · rw [heq]
        exact ⟨source, hsource, Database.holds_of_username hname⟩
      · exact ⟨db, hdb, by
          simpa [Database.Holds, Issue.apply, Write.apply, Table.lookup_setField, heq]
            using hholds⟩

/-- A write keeps records complete when the product that it bids on is there. -/
theorem Issue.Backed.complete {world : World} {dbs : List Database} {issue : Issue}
    (h : issue.Backed world dbs) {db : Database}
    (hthere : ∀ key ∈ issue.bidKey, (db.products.lookup key).isSome)
    (hdb : ∀ key record, db.products.lookup key = some record → record.Complete) :
    ∀ key record, (issue.apply db).products.lookup key = some record → record.Complete := by
  intro key record hlookup
  cases h with
  | auction =>
      simp only [Issue.apply, Write.apply, Table.lookup_insert'] at hlookup
      split at hlookup
      · obtain rfl := Option.some.inj hlookup
        exact ⟨rfl, rfl, rfl, rfl, rfl, rfl, rfl, rfl⟩
      · exact hdb key record hlookup
  | bid _ item amount bidder _ _ _ _ hbid =>
      rcases HomeFeedDetailsViewController.mem_bidIssues.mp hbid with rfl | rfl
      all_goals
        obtain ⟨old, hold⟩ := Option.isSome_iff_exists.mp (hthere item.uniqueKey rfl)
        have hcomplete := hdb _ old hold
        simp only [Issue.apply, Write.apply, Table.lookup_setField,
          HomeFeedDetailsViewController.priceIssue,
          HomeFeedDetailsViewController.bidderIssue, hold, Option.getD_some] at hlookup
        split at hlookup
      · obtain rfl := Option.some.inj hlookup
        exact { hcomplete with highestbidprice := rfl }
      · exact hdb key record hlookup
      · obtain rfl := Option.some.inj hlookup
        exact { hcomplete with highestbidder := rfl }
      · exact hdb key record hlookup
  | delete =>
      simp only [Issue.apply, Write.apply, Table.lookup_erase',
        Option.ite_none_left_eq_some] at hlookup
      exact hdb key record hlookup.2
  | signUp => exact hdb key record hlookup
  | task => exact hdb key record hlookup

/-- A bid is on a product that has been there. -/
theorem Issue.Backed.of_bidKey {world : World} {dbs : List Database} {issue : Issue}
    (h : issue.Backed world dbs) {key : Key} (hkey : issue.bidKey = some key) :
    ∃ db ∈ dbs, (db.products.lookup key).isSome := by
  cases h with
  | bid _ item amount bidder _ hitem _ _ hbid =>
      obtain ⟨db, hdb, record, hrecord, _⟩ := hitem
      refine ⟨db, hdb, ?_⟩
      rcases HomeFeedDetailsViewController.mem_bidIssues.mp hbid with rfl | rfl <;>
        · obtain rfl := Option.some.inj hkey
          simp [hrecord]
  | _ => cases hkey

/-- Only a removal takes products away. -/
theorem Issue.products_kept {issue : Issue} (hremoves : issue.removedKey = none)
    {db : Database} {key : Key} (hkey : (db.products.lookup key).isSome) :
    ((issue.apply db).products.lookup key).isSome := by
  obtain ⟨write, call⟩ := issue
  cases write with
  | setProduct at' =>
      simp only [Issue.apply, Write.apply, Table.lookup_insert']
      split
      · rfl
      · exact hkey
  | setProductField at' =>
      simp only [Issue.apply, Write.apply, Table.lookup_setField]
      split
      · rfl
      · exact hkey
  | removeProduct => cases hremoves
  | setUser => exact hkey
  | updateUser => exact hkey

/-- An event creates at most one key, the fresh one. -/
theorem Client.act_creates {env : Env} {client client' : Client} {action : Action}
    {issues : List Issue} (h : client.act env action = some (.done client' issues)) :
    issues.filterMap Issue.creates = [] ∨ issues.filterMap Issue.creates = [env.freshKey] := by
  cases act_issues h with
  | silent => exact .inl rfl
  | signUp => exact .inr rfl
  | bid => exact .inl rfl
  | delete => exact .inl rfl
  | auction => exact .inr rfl
  | task _ _ pending users writes _ _ hwrites =>
      left
      simp only [List.filterMap_eq_nil_iff, List.mem_map]
      rintro _ ⟨write, hwrite, rfl⟩
      obtain ⟨_, _, _, _, rfl, _⟩ := mem_taskWrites hwrites hwrite
      rfl

namespace System

variable {world : World} {ok : System → Label → Prop} {now : Date} {s s' : System}

/-- Keys that have been created are below the next key. -/
theorem created_lt (h : ReachesUnder world ok now s) :
    ∀ key ∈ s.net.issued.filterMap Issue.creates, key < s.nextKey := by
  refine h.invariant (fun s => ∀ key ∈ s.net.issued.filterMap Issue.creates, key < s.nextKey)
    (by simp [start]) ?_
  intro s l s' _ hinv _ htaken key hkey
  rcases step_net htaken with ⟨hnet, hle⟩ | ⟨_, _, hnet, hle⟩ | ⟨_, _, _, _, _, hact, hnet, hle⟩
  · rw [hnet] at hkey
    exact (hinv key hkey).trans_le hle
  · rw [Outbox.Net.deliver_issued hnet] at hkey
    exact (hinv key hkey).trans_eq hle.symm
  · rw [hnet, Outbox.Net.issue_issued, List.filterMap_append, List.mem_append] at hkey
    rw [hle]
    rcases hkey with hold | hnew
    · exact Nat.lt_succ_of_lt (hinv key hold)
    · rcases Client.act_creates hact with hnone | hfresh
      · simp [hnone] at hnew
      · obtain rfl : key = s.nextKey := by simpa [hfresh, env] using hnew
        exact Nat.lt_succ_self _

theorem keyed (h : ReachesUnder world ok now s) :
    Outbox.Keyed Issue.creates Database.Holds s.net := by
  refine net_invariant (Outbox.Keyed Issue.creates Database.Holds)
    (.of_start fun key => Database.not_holds_empty) ?_ ?_ h
  · intro s sender net hprior _ hnet hkeyed
    refine hkeyed.deliver (honest hprior) hnet ?_
    intro issue key hwire hholds
    have hissued := (honest hprior).mem_issued hwire
    exact (issue_backed hprior issue hissued).holds (Outbox.Net.db_mem_states _) hholds
  · intro s c action client issues hprior _ hact hkeyed
    rcases Client.act_creates hact with hnone | hfresh
    · exact hkeyed.issue (by simp [hnone]) (by simp [hnone])
    · refine hkeyed.issue (by simp [hfresh]) ?_
      intro key hkey hcreated
      obtain rfl : key = s.nextKey := by simpa [hfresh, env] using hkey
      have hlt := created_lt hprior _ hcreated
      exact absurd hlt (lt_irrefl _)

/-- A product is not created while a bid on it is on its way. -/
theorem not_creates_of_bidKey (h : ReachesUnder world ok now s) {sender sender' : ClientId}
    {issue issue' : Issue} {key : Key} (hwire : (sender, issue) ∈ s.wire)
    (hwire' : (sender', issue') ∈ s.wire) (hkey : issue'.bidKey = some key) :
    issue.creates ≠ some key := by
  intro hcreates
  cases issue_backed h issue' ((honest h).mem_issued hwire') with
  | bid _ item amount bidder _ hitem _ _ hbid =>
      obtain ⟨db, hdb, hholds⟩ := hitem.holds
      have heq : item.uniqueKey = key := by
        rcases HomeFeedDetailsViewController.mem_bidIssues.mp hbid with rfl | rfl <;>
          exact Option.some.inj hkey
      rw [heq] at hholds
      exact (keyed h).pending _ hwire key hcreates db hdb hholds
  | _ => cases hkey

/-- Nor while it is there. -/
theorem not_creates_of_productField (h : ReachesUnder world ok now s) {sender : ClientId}
    {issue : Issue} {key : Key} {field : ProductField} {value : Value}
    (hwire : (sender, issue) ∈ s.wire) (hvalue : s.db.productField key field = some value) :
    issue.creates ≠ some key := by
  intro hcreates
  have hholds := Database.holds_of_productField hvalue
  exact (keyed h).pending _ hwire key hcreates _ (Outbox.Net.db_mem_states _) hholds

/-- Every field that a product has had was written by an issued write. -/
theorem field_written (h : ReachesUnder world ok now s) :
    Outbox.Written (fun db (cell : Key × ProductField) => db.productField cell.1 cell.2)
      Issue.Sets s.net := by
  refine net_invariant (Outbox.Written _ Issue.Sets)
    (.of_start fun cell => Database.productField_empty cell.2) ?_ ?_ h
  · intro s sender net hprior _ hnet hwritten
    exact hwritten.deliver (honest hprior) hnet Issue.sets_or_kept
  · intro _ _ _ _ _ _ _ _ hwritten
    exact hwritten.issue _

/-- The record that an auction was opened with under this key. -/
def Created (s : System) (key : Key) (record : ProductRecord) : Prop :=
  ∃ call, ⟨.setProduct key record, call⟩ ∈ s.net.issued

theorem created_unique (h : ReachesUnder world ok now s) {key : Key}
    {record record' : ProductRecord} (hrecord : s.Created key record)
    (hrecord' : s.Created key record') : record = record' := by
  obtain ⟨call, hcall⟩ := hrecord
  obtain ⟨call', hcall'⟩ := hrecord'
  have heq := (keyed h).eq_of_creates key hcall hcall' rfl rfl
  simp only [Issue.mk.injEq, Write.setProduct.injEq] at heq
  exact heq.1.2

theorem created_form (h : ReachesUnder world ok now s) {key : Key} {record : ProductRecord}
    (hrecord : s.Created key record) :
    ∃ (c : ClientId) (form : OpenNewAuctionViewController.Form) (later : Date)
      (opener : String) (price : Price), Registered s.states opener ∧
      record = OpenNewAuctionViewController.productRecord form.itemName
        form.returnedImageUrl opener (DateFormatter.string (world c).zone later)
        (DateFormatter.string (world c).zone form.closingDate) price := by
  obtain ⟨call, hcall⟩ := hrecord
  generalize hissue : (⟨.setProduct key record, call⟩ : Issue) = issue at hcall
  cases issue_backed h issue hcall with
  | auction c _ form later opener price hopener =>
      simp only [Issue.mk.injEq, Write.setProduct.injEq] at hissue
      exact ⟨c, form, later, opener, price, hopener, hissue.1.2⟩
  | bid _ item amount bidder _ _ _ _ hbid =>
      rcases HomeFeedDetailsViewController.mem_bidIssues.mp hbid with rfl | rfl <;> cases hissue
  | delete => simp at hissue
  | signUp => simp at hissue
  | task => simp at hissue

/-- Where a field that a product has had comes from: the auction, or a bid. -/
theorem field_origin (h : ReachesUnder world ok now s) {db : Database} (hdb : db ∈ s.states)
    {key : Key} {field : ProductField} {value : Value}
    (hvalue : db.productField key field = some value) :
    (∃ record, s.Created key record ∧ record field = some value) ∨
    (∃ amount bidder, field = .highestbidprice ∧ value = .number amount ∧
      HomeFeedDetailsViewController.priceIssue key amount bidder ∈ s.net.issued) ∨
    (∃ amount bidder, field = .highestbidder ∧ value = .string bidder ∧
      HomeFeedDetailsViewController.bidderIssue key amount bidder ∈ s.net.issued) := by
  obtain ⟨issue, hissue, hsets⟩ := field_written h db hdb (key, field) value hvalue
  cases issue_backed h issue hissue with
  | auction =>
      obtain ⟨rfl, hfield⟩ := hsets
      exact .inl ⟨_, ⟨_, hissue⟩, hfield⟩
  | bid _ item amount bidder _ _ _ _ hbid =>
      rcases HomeFeedDetailsViewController.mem_bidIssues.mp hbid with rfl | rfl
      · obtain ⟨hcell, rfl⟩ := hsets
        obtain ⟨rfl, rfl⟩ := Prod.mk.inj hcell
        exact .inr (.inl ⟨amount, bidder, rfl, rfl, hissue⟩)
      · obtain ⟨hcell, rfl⟩ := hsets
        obtain ⟨rfl, rfl⟩ := Prod.mk.inj hcell
        exact .inr (.inr ⟨amount, bidder, rfl, rfl, hissue⟩)
  | delete => cases hsets
  | signUp => cases hsets
  | task => cases hsets

/-- A field that no bid writes is as the auction was opened with. -/
theorem field_created (h : ReachesUnder world ok now s) {db : Database} (hdb : db ∈ s.states)
    {key : Key} {field : ProductField} {value : Value} (hprice : field ≠ .highestbidprice)
    (hbidder : field ≠ .highestbidder) (hvalue : db.productField key field = some value) :
    ∃ record, s.Created key record ∧ record field = some value := by
  rcases field_origin h hdb hvalue with hcreated | ⟨_, _, hfield, _⟩ | ⟨_, _, hfield, _⟩
  · exact hcreated
  · exact absurd hfield hprice
  · exact absurd hfield hbidder

/-- So it is the same in all states that have it. -/
theorem field_static (h : ReachesUnder world ok now s) {db db' : Database}
    (hdb : db ∈ s.states) (hdb' : db' ∈ s.states) {key : Key} {field : ProductField}
    {value value' : Value} (hprice : field ≠ .highestbidprice)
    (hbidder : field ≠ .highestbidder) (hvalue : db.productField key field = some value)
    (hvalue' : db'.productField key field = some value') : value = value' := by
  obtain ⟨record, hrecord, hfield⟩ := field_created h hdb hprice hbidder hvalue
  obtain ⟨record', hrecord', hfield'⟩ := field_created h hdb' hprice hbidder hvalue'
  obtain rfl := created_unique h hrecord hrecord'
  exact Option.some.inj (hfield.symm.trans hfield')

/-- All items of one product have its dates. -/
theorem dates_eq (h : ReachesUnder world ok now s) {zone : TimeZone}
    {item item' : AuctionItem} (hitem : item.Sourced zone s.states)
    (hitem' : item'.Sourced zone s.states)
    (hkey : item'.uniqueKey = item.uniqueKey) :
    item'.openDate = item.openDate ∧ item'.closeDate = item.closeDate := by
  obtain ⟨db, hdb, record, hrecord, hshows⟩ := hitem
  obtain ⟨db', hdb', record', hrecord', hshows'⟩ := hitem'
  rw [hkey] at hrecord'
  have hfield : ∀ {field text text'}, field ≠ .highestbidprice → field ≠ .highestbidder →
      record field = some (.string text) → record' field = some (.string text') →
      text' = text := by
    intro field text text' hprice hbidder htext htext'
    have hsame := field_static h hdb' hdb hprice hbidder
      (Database.productField_eq_some.mpr ⟨record', hrecord', htext'⟩)
      (Database.productField_eq_some.mpr ⟨record, hrecord, htext⟩)
    exact Value.string.inj hsame
  obtain ⟨opened, hopened, hopen⟩ := hshows.opendate
  obtain ⟨opened', hopened', hopen'⟩ := hshows'.opendate
  obtain ⟨closed, hclosed, hclose⟩ := hshows.closedate
  obtain ⟨closed', hclosed', hclose'⟩ := hshows'.closedate
  obtain rfl := hfield (by simp) (by simp) hopened hopened'
  obtain rfl := hfield (by simp) (by simp) hclosed hclosed'
  exact ⟨Option.some.inj (hopen'.symm.trans hopen), Option.some.inj (hclose'.symm.trans hclose)⟩

/-- A stored price is the initial one or that of an issued bid. -/
theorem price_origin (h : ReachesUnder world ok now s) {db : Database} (hdb : db ∈ s.states)
    {key : Key} {value : Value} (hvalue : db.productField key .highestbidprice = some value) :
    ∃ price, value = .number price ∧ (price = 0 ∨ ∃ bidder,
      HomeFeedDetailsViewController.priceIssue key price bidder ∈ s.net.issued) := by
  rcases field_origin h hdb hvalue with ⟨record, hrecord, hfield⟩ |
    ⟨amount, bidder, _, rfl, hissue⟩ | ⟨_, _, hfield, _⟩
  · obtain ⟨_, _, _, _, _, _, rfl⟩ := created_form h hrecord
    exact ⟨0, (Option.some.inj hfield).symm, .inl rfl⟩
  · exact ⟨amount, rfl, .inr ⟨bidder, hissue⟩⟩
  · cases hfield

/-- A stored bidder is the placeholder or that of an issued bid. -/
theorem bidder_origin (h : ReachesUnder world ok now s) {db : Database} (hdb : db ∈ s.states)
    {key : Key} {value : Value} (hvalue : db.productField key .highestbidder = some value) :
    ∃ bidder, value = .string bidder ∧ (bidder = "-" ∨ ∃ amount,
      HomeFeedDetailsViewController.bidderIssue key amount bidder ∈ s.net.issued) := by
  rcases field_origin h hdb hvalue with ⟨record, hrecord, hfield⟩ |
    ⟨_, _, hfield, _⟩ | ⟨amount, bidder, _, rfl, hissue⟩
  · obtain ⟨_, _, _, _, _, _, rfl⟩ := created_form h hrecord
    exact ⟨"-", (Option.some.inj hfield).symm, .inl rfl⟩
  · cases hfield
  · exact ⟨bidder, rfl, .inr ⟨amount, hissue⟩⟩

/-- A write keeps the record of a user that is there, with its name and its
password. -/
theorem user_kept {dbs : List Database} {issue : Issue} (hbacked : issue.Backed world dbs)
    {db : Database} {key : Key} {record : UserRecord}
    (hrecord : db.users.lookup key = some record)
    (hfresh : ∀ created, issue.creates = some created → ¬ db.Holds created) :
    ∃ record', (issue.apply db).users.lookup key = some record' ∧
      record' .Username = record .Username ∧ record' .Password = record .Password := by
  rcases issue.users_after db key with hsame | ⟨_, hwrite, _⟩ | ⟨field, value, hwrite, hnew⟩
  · exact ⟨record, hsame.trans hrecord, rfl, rfl⟩
  · have hheld : db.Holds key := .inr (by simp [hrecord])
    exact absurd hheld (hfresh key (by simp [Issue.creates, hwrite]))
  · obtain ⟨_, hfield, hpassword⟩ := hbacked.of_updateUser hwrite
    rw [hrecord, Option.getD_some] at hnew
    exact ⟨_, hnew, Function.update_of_ne hfield.symm _ _,
      Function.update_of_ne hpassword.symm _ _⟩

/-- So does a run: no user is ever removed. -/
theorem user_stable (h : ReachesUnder world ok now s) {db : Database} (hdb : db ∈ s.states)
    {key : Key} {record : UserRecord} (hrecord : db.users.lookup key = some record) :
    ∃ record', s.db.users.lookup key = some record' ∧
      record' .Username = record .Username ∧ record' .Password = record .Password := by
  refine db_stable (fun db => ∃ record', db.users.lookup key = some record' ∧
    record' .Username = record .Username ∧ record' .Password = record .Password) ?_ h db hdb
    ⟨record, hrecord, rfl, rfl⟩
  rintro s sender issue hprior _ _ hwire ⟨old, hold, hname, hpassword⟩
  have hbacked := issue_backed hprior issue ((honest hprior).mem_issued hwire)
  have hfresh : ∀ created, issue.creates = some created → ¬ s.db.Holds created :=
    fun created hcreates =>
      (keyed hprior).pending _ hwire created hcreates _ (Outbox.Net.db_mem_states _)
  obtain ⟨new, hnew, hname', hpassword'⟩ := user_kept hbacked hold hfresh
  exact ⟨new, hnew, hname'.trans hname, hpassword'.trans hpassword⟩

/-- A user keeps the name it has had in any earlier state. -/
theorem username_stable (h : ReachesUnder world ok now s) {db : Database} (hdb : db ∈ s.states)
    {key : Key} {name : String} (hname : db.username key = some name) :
    s.db.username key = some name := by
  obtain ⟨record, hrecord, hstored⟩ := Database.username_eq_some.mp hname
  obtain ⟨record', hrecord', hsame, _⟩ := user_stable h hdb hrecord
  exact Database.username_eq_some.mpr ⟨record', hrecord', hsame.trans hstored⟩

/-- Whoever has been a registered user still is one. -/
theorem registered_now (h : ReachesUnder world ok now s) {name : String}
    (hname : Registered s.states name) : ∃ key, s.db.username key = some name := by
  obtain ⟨db, hdb, key, hkey⟩ := hname
  exact ⟨key, username_stable h hdb hkey⟩

end System

end Auctioneer
