import Auctioneer.Library.Drain
import Auctioneer.Property.AnyOrder

/-!
In which order outstanding writes arrive matters only where two clients disagree
about one field, or one of them removes the product that the other bids on.
-/

namespace Auctioneer

/-- A table may hold anything under a key. -/
theorem Table.exists_lookup {Record : Type} (key : Key) (old : Option Record) :
    ∃ table : Table Record, table.lookup key = old := by
  cases old with
  | none => exact ⟨∅, rfl⟩
  | some record => exact ⟨AList.insert key record ∅, AList.lookup_insert _⟩

namespace Write

/-- The record that a write is about. -/
def target : Write → Key
  | .setProduct key _ | .setProductField key _ _ | .removeProduct key
  | .setUser key _ | .updateUser key _ _ => key

/-- What a write makes of the product under a key. -/
def onProduct (write : Write) (key : Key) (old : Option ProductRecord) : Option ProductRecord :=
  match write with
  | .setProduct at' record => if key = at' then some record else old
  | .setProductField at' field value =>
      if key = at' then some (Function.update (old.getD fun _ => none) field (some value)) else old
  | .removeProduct at' => if key = at' then none else old
  | .setUser _ _ | .updateUser _ _ _ => old

/-- What it makes of the user. -/
def onUser (write : Write) (key : Key) (old : Option UserRecord) : Option UserRecord :=
  match write with
  | .setUser at' record => if key = at' then some record else old
  | .updateUser at' field value =>
      if key = at' then some (Function.update (old.getD fun _ => none) field (some value)) else old
  | .setProduct _ _ | .setProductField _ _ _ | .removeProduct _ => old

theorem products_apply (write : Write) (db : Database) (key : Key) :
    (write.apply db).products.lookup key = write.onProduct key (db.products.lookup key) := by
  cases write with
  | setProductField at' field value =>
      simp only [apply, onProduct, Table.lookup_setField]
      split
      · next heq => rw [heq]
      · rfl
  | _ => simp [apply, onProduct, Table.lookup_insert', Table.lookup_erase']

theorem users_apply (write : Write) (db : Database) (key : Key) :
    (write.apply db).users.lookup key = write.onUser key (db.users.lookup key) := by
  cases write with
  | updateUser at' field value =>
      simp only [apply, onUser, Table.lookup_setField]
      split
      · next heq => rw [heq]
      · rfl
  | _ => simp [apply, onUser, Table.lookup_insert']

/-- Two writes that disagree: about a field of one record, or about whether the
record is there at all. -/
inductive Conflicts : Write → Write → Prop where
  | productField (key : Key) (field : ProductField) (value value' : Value) : value ≠ value' →
      Conflicts (.setProductField key field value) (.setProductField key field value')
  | userField (key : Key) (field : UserField) (value value' : Value) : value ≠ value' →
      Conflicts (.updateUser key field value) (.updateUser key field value')
  | bidRemoved (key : Key) (field : ProductField) (value : Value) :
      Conflicts (.setProductField key field value) (.removeProduct key)
  | removedBid (key : Key) (field : ProductField) (value : Value) :
      Conflicts (.removeProduct key) (.setProductField key field value)

variable {write write' : Write} {key : Key}

theorem Conflicts.target (h : write.Conflicts write') : write.target = write'.target := by
  cases h <;> rfl

theorem onProduct_of_ne (h : key ≠ write.target) (old : Option ProductRecord) :
    write.onProduct key old = old := by
  cases write with
  | setUser | updateUser => rfl
  | _ => exact if_neg h

theorem onUser_of_ne (h : key ≠ write.target) (old : Option UserRecord) :
    write.onUser key old = old := by
  cases write with
  | setUser | updateUser => exact if_neg h
  | _ => rfl

/-- A write of a whole record. -/
def Creates (write : Write) : Prop :=
  (∃ key record, write = .setProduct key record) ∨ ∃ key record, write = .setUser key record

theorem cases_of_not_creates (h : ¬ write.Creates) :
    (∃ key field value, write = .setProductField key field value) ∨
    (∃ key, write = .removeProduct key) ∨
    ∃ key field value, write = .updateUser key field value := by
  cases write with
  | setProduct key record => exact absurd (.inl ⟨key, record, rfl⟩) h
  | setUser key record => exact absurd (.inr ⟨key, record, rfl⟩) h
  | setProductField key field value => exact .inl ⟨key, field, value, rfl⟩
  | removeProduct key => exact .inr (.inl ⟨key, rfl⟩)
  | updateUser key field value => exact .inr (.inr ⟨key, field, value, rfl⟩)

/-- The two writes commute, table by table and key by key. -/
theorem commute_iff_forall :
    Outbox.Commute Write.apply Database.Same write write' ↔
      (∀ key old, write.onProduct key (write'.onProduct key old) =
        write'.onProduct key (write.onProduct key old)) ∧
      ∀ key old, write.onUser key (write'.onUser key old) =
        write'.onUser key (write.onUser key old) := by
  constructor
  · intro h
    refine ⟨?_, ?_⟩
    · intro key old
      obtain ⟨products, hlookup⟩ := Table.exists_lookup key old
      have hdb := (h ⟨products, ∅⟩).products key
      simpa only [products_apply, hlookup] using hdb
    · intro key old
      obtain ⟨users, hlookup⟩ := Table.exists_lookup key old
      have hdb := (h ⟨∅, users⟩).users key
      simpa only [users_apply, hlookup] using hdb
  · rintro ⟨hproduct, huser⟩ db
    refine ⟨fun key => ?_, fun key => ?_⟩
    · simp only [products_apply]
      exact hproduct key _
    · simp only [users_apply]
      exact huser key _

/-- Writes about different records commute. -/
theorem commute_of_ne (h : write.target ≠ write'.target) :
    Outbox.Commute Write.apply Database.Same write write' := by
  refine commute_iff_forall.mpr ⟨fun key old => ?_, fun key old => ?_⟩
  · by_cases hkey : key = write.target
    · have hother : key ≠ write'.target := fun heq => h (hkey.symm.trans heq)
      rw [onProduct_of_ne hother, onProduct_of_ne hother]
    · rw [onProduct_of_ne hkey, onProduct_of_ne hkey]
  · by_cases hkey : key = write.target
    · have hother : key ≠ write'.target := fun heq => h (hkey.symm.trans heq)
      rw [onUser_of_ne hother, onUser_of_ne hother]
    · rw [onUser_of_ne hkey, onUser_of_ne hkey]

/-- Two updates of one record commute where they agree. -/
theorem update_comm {Field : Type} [DecidableEq Field] {field field' : Field} {value value' : Value}
    (h : field = field' → value = value') (record : Field → Option Value) :
    Function.update (Function.update record field' (some value')) field (some value) =
      Function.update (Function.update record field (some value)) field' (some value') := by
  by_cases hfield : field = field'
  · obtain rfl := hfield
    rw [h rfl]
  · exact Function.update_comm (Ne.symm hfield) _ _ _

/-- Writes that create nothing commute exactly when they do not conflict. -/
theorem commute_iff (hcreates : ¬ write.Creates) (hcreates' : ¬ write'.Creates) :
    Outbox.Commute Write.apply Database.Same write write' ↔ ¬ write.Conflicts write' := by
  by_cases htarget : write.target = write'.target
  swap
  · refine iff_of_true (commute_of_ne htarget) ?_
    exact fun hconflicts => htarget hconflicts.target
  rw [commute_iff_forall]
  constructor
  · rintro ⟨hproduct, huser⟩ hconflicts
    cases hconflicts with
    | productField key field value value' hne =>
        have hfield := congrArg (·.bind fun record => record field) (hproduct key none)
        simp [onProduct] at hfield
        exact hne hfield
    | userField key field value value' hne =>
        have hfield := congrArg (·.bind fun record => record field) (huser key none)
        simp [onUser] at hfield
        exact hne hfield
    | bidRemoved key => simpa [onProduct] using hproduct key none
    | removedBid key => simpa [onProduct] using hproduct key none
  · intro hagree
    obtain ⟨at', field, value, rfl⟩ | ⟨at', rfl⟩ | ⟨at', field, value, rfl⟩ :=
      cases_of_not_creates hcreates
    · obtain ⟨at'', field', value', rfl⟩ | ⟨at'', rfl⟩ | ⟨_, _, _, rfl⟩ :=
        cases_of_not_creates hcreates'
      · obtain rfl : at' = at'' := htarget
        have hvalue : field = field' → value = value' := by
          rintro rfl
          by_contra hne
          exact hagree (.productField at' field value value' hne)
        refine ⟨fun key old => ?_, fun _ _ => rfl⟩
        simp only [onProduct]
        split
        · simp only [Option.getD_some, update_comm hvalue]
        · rfl
      · obtain rfl : at' = at'' := htarget
        exact absurd (.bidRemoved at' field value) hagree
      · exact ⟨fun _ _ => rfl, fun _ _ => rfl⟩
    · obtain ⟨at'', field, value, rfl⟩ | ⟨at'', rfl⟩ | ⟨_, _, _, rfl⟩ :=
        cases_of_not_creates hcreates'
      · obtain rfl : at' = at'' := htarget
        exact absurd (.removedBid at' field value) hagree
      · obtain rfl : at' = at'' := htarget
        exact ⟨fun _ _ => rfl, fun _ _ => rfl⟩
      · exact ⟨fun _ _ => rfl, fun _ _ => rfl⟩
    · obtain ⟨_, _, _, rfl⟩ | ⟨_, rfl⟩ | ⟨at'', field', value', rfl⟩ :=
        cases_of_not_creates hcreates'
      · exact ⟨fun _ _ => rfl, fun _ _ => rfl⟩
      · exact ⟨fun _ _ => rfl, fun _ _ => rfl⟩
      · obtain rfl : at' = at'' := htarget
        have hvalue : field = field' → value = value' := by
          rintro rfl
          by_contra hne
          exact hagree (.userField at' field value value' hne)
        refine ⟨fun _ _ => rfl, fun key old => ?_⟩
        simp only [onUser]
        split
        · simp only [Option.getD_some, update_comm hvalue]
        · rfl

theorem respects : Outbox.Respects Write.apply Database.Same where
  equivalence := ⟨Database.Same.refl, Database.Same.symm, Database.Same.trans⟩
  apply write db db' h := by
    refine ⟨fun key => ?_, fun key => ?_⟩
    · rw [products_apply, products_apply, h.products]
    · rw [users_apply, users_apply, h.users]

end Write

namespace System

variable {world : World} {ok : System → Label → Prop} {now : Date} {s : System}

theorem creates_of_creates {issue : Issue} (h : issue.write.Creates) :
    issue.creates = some issue.write.target := by
  obtain ⟨write, call⟩ := issue
  obtain ⟨key, record, rfl⟩ | ⟨key, record, rfl⟩ := h <;> rfl

/-- A write that creates nothing is about a record that has been there. -/
theorem target_held {dbs : List Database} {issue : Issue} (hbacked : issue.Backed world dbs)
    (hcreates : ¬ issue.write.Creates) : ∃ db ∈ dbs, db.Holds issue.write.target := by
  cases hbacked with
  | auction => exact absurd (.inl ⟨_, _, rfl⟩) hcreates
  | signUp => exact absurd (.inr ⟨_, _, rfl⟩) hcreates
  | bid _ item amount bidder _ hitem _ _ hbid =>
      rcases HomeFeedDetailsViewController.mem_bidIssues.mp hbid with rfl | rfl <;>
        exact hitem.holds
  | delete _ item _ _ hitem => exact hitem.holds
  | task _ _ _ _ _ db hdb hname => exact ⟨db, hdb, Database.holds_of_username hname⟩

/-- No two outstanding writes create the same record. -/
theorem wire_creates (h : ReachesUnder world ok now s) :
    s.wire.Pairwise fun sent sent' =>
      ∀ key, sent.2.creates = some key → sent'.2.creates ≠ some key := by
  have hnodup := (keyed h).distinct
  have hsub := (honest h).filterMap Issue.creates
  have hwire := hnodup.sublist hsub
  rw [List.filterMap_map, List.Nodup, List.pairwise_filterMap] at hwire
  refine hwire.imp ?_
  intro sent sent' hne key hkey hkey'
  exact hne key hkey key hkey' rfl

/-- The writes of different clients that are outstanding do not conflict. -/
def Agreed (s : System) : Prop :=
  s.wire.Pairwise fun sent sent' =>
    sent.1 ≠ sent'.1 → ¬ sent.2.write.Conflicts sent'.2.write

/-- They are about different records, or create none. -/
theorem commute_of_wire (h : ReachesUnder world ok now s) {sent sent' : ClientId × Issue}
    (hsent : sent ∈ s.wire) (hsent' : sent' ∈ s.wire)
    (hcreated : ∀ key, sent.2.creates = some key → sent'.2.creates ≠ some key)
    (hagreed : ¬ sent.2.write.Conflicts sent'.2.write) :
    Outbox.Commute Issue.apply Database.Same sent.2 sent'.2 := by
  by_cases htarget : sent.2.write.target = sent'.2.write.target
  swap
  · exact Write.commute_of_ne htarget
  have hother : ∀ {sent sent' : ClientId × Issue}, sent ∈ s.wire → sent' ∈ s.wire →
      sent.2.write.target = sent'.2.write.target → sent.2.write.Creates →
      sent'.2.write.Creates := by
    intro sent sent' hsent hsent' htarget hcreates
    by_contra hnot
    obtain ⟨db, hdb, hheld⟩ := target_held (issue_backed h _ ((honest h).mem_issued hsent')) hnot
    rw [← htarget] at hheld
    exact (keyed h).pending sent hsent _ (creates_of_creates hcreates) db hdb hheld
  have hnone : ¬ sent.2.write.Creates := by
    intro hcreates
    have hcreates' := hother hsent hsent' htarget hcreates
    refine hcreated _ (creates_of_creates hcreates) ?_
    rw [creates_of_creates hcreates', htarget]
  have hnone' : ¬ sent'.2.write.Creates :=
    fun hcreates => hnone (hother hsent' hsent htarget.symm hcreates)
  exact (Write.commute_iff hnone hnone').mpr hagreed

theorem unconflicted (h : ReachesUnder world ok now s) (hagreed : s.Agreed) :
    Outbox.Unconflicted Issue.apply Database.Same s.net := by
  refine List.Pairwise.imp_of_mem ?_ (hagreed.and (wire_creates h))
  rintro sent sent' hsent hsent' ⟨hagree, hcreated⟩ hne
  exact commute_of_wire h hsent hsent' hcreated (hagree hne)

/-- A run of deliveries is one of the network. -/
theorem run_deliver {cs : List ClientId} {s' : System}
    (hrun : Machine.run (step world) s (cs.map .deliver) = some s') :
    s.net.delivers Issue.apply cs = some s'.net := by
  induction cs generalizing s with
  | nil =>
      obtain rfl := Option.some.inj hrun
      rfl
  | cons c cs ih =>
      obtain ⟨next, hnext, hrest⟩ := Option.bind_eq_some_iff.mp hrun
      simp only [step, Option.map_eq_some_iff] at hnext
      obtain ⟨net, hnet, rfl⟩ := hnext
      exact Option.bind_eq_some_iff.mpr ⟨net, hnet, ih hrest⟩

/-- Whatever the order in which all that is outstanding arrives, the database
ends with the same records. -/
def Converges (world : World) (s : System) : Prop :=
  ∀ (cs₁ cs₂ : List ClientId) (s₁ s₂ : System),
    Machine.run (step world) s (cs₁.map .deliver) = some s₁ →
    Machine.run (step world) s (cs₂.map .deliver) = some s₂ →
    s₁.wire = [] → s₂.wire = [] → s₁.db.Same s₂.db

theorem converges (h : Reachable world now s) (hagreed : s.Agreed) : s.Converges world := by
  intro cs₁ cs₂ s₁ s₂ hrun₁ hrun₂ hend₁ hend₂
  exact (unconflicted h hagreed).confluent ⟨Write.respects.equivalence, fun issue =>
    Write.respects.apply issue.write⟩ (run_deliver hrun₁) (run_deliver hrun₂) hend₁ hend₂

/-- Amy has bid on the lamp, and Sue's auction is being counted. -/
def lampBidAndCount : List Label :=
  Scenario.lampOpened ++ Scenario.openFirst 1 4 ++
    [.act 1 (.bidSubmit "20"), .act 0 (.usersEvent 0 4)]

theorem converges_of_lamp :
    ∃ s, Reachable Scenario.world Scenario.opening s ∧ s.wire.length = 3 ∧
      s.Converges Scenario.world := by
  obtain ⟨s, hreach, hlength, htargets⟩ :
      ∃ s, Reachable Scenario.world Scenario.opening s ∧ s.wire.length = 3 ∧
        s.wire.Pairwise fun sent sent' =>
          sent.1 ≠ sent'.1 → sent.2.write.target ≠ sent'.2.write.target :=
    Machine.exists_reachable lampBidAndCount (by decide +kernel)
  refine ⟨s, hreach, hlength, converges hreach (htargets.imp ?_)⟩
  intro sent sent' htarget hne hconflicts
  exact htarget hne hconflicts.target

end System

end Auctioneer
