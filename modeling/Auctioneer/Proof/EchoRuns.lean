import Auctioneer.Model.EchoSystem
import Auctioneer.Proof.ClientRuns
import Auctioneer.Proof.Records

/-!
Runs in which the apps read their own writes: what one step does, a rule for
the database and the wire, and where the values come from that an app is shown.
-/

namespace Auctioneer

/-- An event that is dealt with is dealt with in the same way when there are more
snapshots to choose from. -/
theorem Client.act_of_snapshots {env : Env} {client : Client} {action : Action}
    {reaction : Reaction} {snapshots : List Database}
    (hsees : ∀ (n : ℕ) db, env.snapshots[n]? = some db → snapshots[n]? = some db)
    (h : client.act env action = some reaction) :
    client.act { env with snapshots } action = some reaction := by
  unfold act at h ⊢
  split at h
  · cases h
  rw [if_neg ‹_›]
  cases action with
  | signUp =>
      obtain ⟨users, husers, h⟩ := Option.bind_eq_some_iff.mp h
      exact Option.bind_eq_some_iff.mpr ⟨users, hsees _ _ husers, h⟩
  | login =>
      obtain ⟨users, husers, h⟩ := Option.bind_eq_some_iff.mp h
      exact Option.bind_eq_some_iff.mpr ⟨users, hsees _ _ husers, h⟩
  | productsEvent =>
      simp only [productsEvent, Option.bind_eq_bind, Option.bind_eq_some_iff] at h ⊢
      obtain ⟨list, hlist, products, hproducts, h⟩ := h
      exact ⟨list, hlist, products, hsees _ _ hproducts, h⟩
  | detailsEvent =>
      simp only [detailsEvent, Option.bind_eq_bind, Option.bind_eq_some_iff] at h ⊢
      obtain ⟨shown, hshown, db, hdb, h⟩ := h
      exact ⟨shown, hshown, db, hsees _ _ hdb, h⟩
  | priceRead =>
      simp only [priceRead, Option.bind_eq_bind, Option.bind_eq_some_iff] at h ⊢
      obtain ⟨product, hproduct, db, hdb, h⟩ := h
      exact ⟨product, hproduct, db, hsees _ _ hdb, h⟩
  | usersEvent =>
      simp only [usersEvent, Option.bind_eq_bind, Option.bind_eq_some_iff] at h ⊢
      obtain ⟨pending, hpending, users, husers, h⟩ := h
      exact ⟨pending, hpending, users, hsees _ _ husers, h⟩
  | profileUsersEvent =>
      simp only [profileUsersEvent, Option.bind_eq_bind, Option.bind_eq_some_iff] at h ⊢
      obtain ⟨shown, hshown, users, husers, h⟩ := h
      exact ⟨shown, hshown, users, hsees _ _ husers, h⟩
  | profileProductsEvent =>
      simp only [profileProductsEvent, Option.bind_eq_bind, Option.bind_eq_some_iff] at h ⊢
      obtain ⟨shown, hshown, products, hproducts, h⟩ := h
      exact ⟨shown, hshown, products, hsees _ _ hproducts, h⟩
  | _ => exact h

/-- What every write of an app is like: it gives a product a price that is a
number, a sign-up makes a record of a user, and an update of one leaves the name
and the password alone. -/
structure Issue.Shaped (issue : Issue) : Prop where
  price : ∀ key value, issue.Sets (key, .highestbidprice) value → ∃ price, value = .number price
  signUp : ∀ key record, issue.write = .setUser key record →
    ∃ username password, record = SignUpViewController.userRecord username password
  update : ∀ key field value, issue.write = .updateUser key field value →
    field ≠ .Username ∧ field ≠ .Password

theorem Client.Issued.shaped {env : Env} {client : Client} {action : Action} {issue : Issue}
    (h : Issued env client action issue) : issue.Shaped := by
  cases h with
  | signUp _ username password =>
      refine ⟨(fun _ _ hsets => by cases hsets), ?_, (fun _ _ _ hwrite => by cases hwrite)⟩
      intro key record hwrite
      exact ⟨username, password, (Write.setUser.inj hwrite).2.symm⟩
  | bid _ item _ amount _ _ _ _ hbid =>
      rcases HomeFeedDetailsViewController.mem_bidIssues.mp hbid with rfl | rfl <;>
        refine ⟨?_, (fun _ _ hwrite => by cases hwrite), (fun _ _ _ hwrite => by cases hwrite)⟩
      · rintro key value ⟨_, rfl⟩
        exact ⟨amount, rfl⟩
      · rintro key value ⟨hcell, _⟩
        cases (Prod.mk.inj hcell).2
  | delete =>
      exact ⟨(fun _ _ hsets => by cases hsets), (fun _ _ hwrite => by cases hwrite),
        (fun _ _ _ hwrite => by cases hwrite)⟩
  | auction _ _ record _ hcreate =>
      obtain ⟨_, _, _, _, rfl⟩ := OpenNewAuctionViewController.submitAuction_create hcreate
      refine ⟨?_, (fun _ _ hwrite => by cases hwrite), (fun _ _ _ hwrite => by cases hwrite)⟩
      rintro key value ⟨_, hvalue⟩
      exact ⟨0, (Option.some.inj hvalue).symm⟩
  | task _ _ _ _ _ _ _ _ _ _ hfield hpassword =>
      refine ⟨(fun _ _ hsets => by cases hsets), (fun _ _ hwrite => by cases hwrite), ?_⟩
      intro key field value hwrite
      obtain ⟨_, rfl, _⟩ := Write.updateUser.inj hwrite
      exact ⟨hfield, hpassword⟩

/-- What a write sets is there after it. -/
theorem Issue.productField_of_sets {issue : Issue} {cell : Key × ProductField} {value : Value}
    (h : issue.Sets cell value) (db : Database) :
    (issue.apply db).productField cell.1 cell.2 = some value := by
  obtain ⟨key, field⟩ := cell
  obtain ⟨write, call⟩ := issue
  cases write with
  | setProduct created record =>
      obtain ⟨rfl, hvalue⟩ := h
      simpa [Issue.apply, Write.apply, Database.productField] using hvalue
  | setProductField written _ _ =>
      obtain ⟨hcell, rfl⟩ := h
      obtain ⟨rfl, rfl⟩ := Prod.mk.inj hcell
      simp [Issue.apply, Write.apply, Database.productField, Table.lookup_setField]
  | _ => cases h

theorem Issue.userField_of_sets {issue : Issue} {cell : Key × UserField} {value : Value}
    (h : issue.SetsUser cell value) (db : Database) :
    (issue.apply db).userField cell.1 cell.2 = some value := by
  obtain ⟨key, field⟩ := cell
  obtain ⟨write, call⟩ := issue
  cases write with
  | setUser created record =>
      obtain ⟨rfl, hvalue⟩ := h
      simpa [Issue.apply, Write.apply, Database.userField] using hvalue
  | updateUser updated _ _ =>
      obtain ⟨hcell, rfl⟩ := h
      obtain ⟨rfl, rfl⟩ := Prod.mk.inj hcell
      simp [Issue.apply, Write.apply, Database.userField, Table.lookup_setField]
  | _ => cases h

namespace EchoSystem

variable {world : World} {ok : EchoSystem → Label → Prop} {now : Date} {e e' : EchoSystem}
  {l : Label} {c : ClientId}

/-- Every kind of step: time passes, a write arrives, or an app reacts. -/
theorem step_cases (h : e.step world l = some e') :
    (∃ later, l = .tick later ∧ e' = { e with system := { e.system with now := later } }) ∨
    (∃ sender net, l = .deliver sender ∧
      e.system.net.deliver sender Issue.apply = some net ∧
      e' = { e with system := { e.system with net } }) ∨
    (∃ c action, l = .act c action ∧
      (e.system.client c).act (e.env world c (action.ends e.system.now)) action = some .crash ∧
      e' = e.react c (action.ends e.system.now) .crash) ∨
    (∃ c action client issues, l = .act c action ∧
      (e.system.client c).act (e.env world c (action.ends e.system.now)) action =
        some (.done client issues) ∧
      e' = e.react c (action.ends e.system.now) (.done client issues)) := by
  cases l with
  | tick later =>
      simp only [step, System.step, Option.map_eq_some_iff, Option.ite_none_right_eq_some,
        Option.some.injEq] at h
      obtain ⟨system, ⟨_, rfl⟩, rfl⟩ := h
      exact .inl ⟨later, rfl, rfl⟩
  | deliver sender =>
      simp only [step, System.step, Option.map_eq_some_iff] at h
      obtain ⟨system, ⟨net, hnet, rfl⟩, rfl⟩ := h
      exact .inr (.inl ⟨sender, net, rfl, hnet, rfl⟩)
  | act c action =>
      simp only [step, Option.ite_none_right_eq_some, Option.map_eq_some_iff] at h
      obtain ⟨_, reaction, hact, rfl⟩ := h
      cases reaction with
      | crash => exact .inr (.inr (.inl ⟨c, action, rfl, hact, rfl⟩))
      | done client issues =>
          exact .inr (.inr (.inr ⟨c, action, client, issues, rfl, hact, rfl⟩))

/-- What a step does to one client: nothing, a crash, or an event. -/
theorem step_client (h : e.step world l = some e') (c : ClientId) :
    e'.system.client c = e.system.client c ∨
    e'.system.client c = { e.system.client c with crashed := true } ∨
    ∃ action issues, l = .act c action ∧
      (e.system.client c).act (e.env world c (action.ends e.system.now)) action =
        some (.done (e'.system.client c) issues) := by
  rcases step_cases h with ⟨_, _, rfl⟩ | ⟨_, _, _, _, rfl⟩ | ⟨actor, _, _, _, rfl⟩ |
    ⟨actor, action, client, issues, hl, hact, rfl⟩
  · exact .inl rfl
  · exact .inl rfl
  · by_cases hc : c = actor
    · subst hc
      exact .inr (.inl (by simp [react]))
    · exact .inl (by simp [react, System.react_client_ne hc])
  · by_cases hc : c = actor
    · subst hc
      exact .inr (.inr ⟨action, issues, hl, by simpa [react] using hact⟩)
    · exact .inl (by simp [react, System.react_client_ne hc])

theorem step_states (h : e.step world l = some e') {db : Database} (hdb : db ∈ e.system.states) :
    db ∈ e'.system.states := by
  rcases step_cases h with ⟨_, _, rfl⟩ | ⟨_, _, _, hnet, rfl⟩ | ⟨_, _, _, _, rfl⟩ |
    ⟨_, _, _, _, _, _, rfl⟩
  · exact hdb
  · exact Outbox.Net.mem_states_of_deliver hnet hdb
  · exact hdb
  · exact hdb

theorem step_sent (h : e.step world l = some e') (c : ClientId) : e.sent c ⊆ e'.sent c := by
  intro issue hissue
  rcases step_cases h with ⟨_, _, rfl⟩ | ⟨_, _, _, _, rfl⟩ | ⟨_, _, _, _, rfl⟩ |
    ⟨actor, _, _, issues, _, _, rfl⟩
  · exact hissue
  · exact hissue
  · exact hissue
  · by_cases hc : c = actor
    · subst hc
      simp [react, hissue]
    · simpa [react, Function.update_of_ne hc] using hissue

/-- A step in which the snapshot is a bare state. -/
theorem step_of_system {s' : System} (h : e.system.step world l = some s') :
    ∃ e', e.step world l = some e' ∧ e'.system = s' := by
  cases l with
  | act c action =>
      simp only [System.step, Option.ite_none_right_eq_some, Option.map_eq_some_iff] at h
      obtain ⟨hends, reaction, hact, rfl⟩ := h
      have hechoed : (e.system.client c).act (e.env world c (action.ends e.system.now)) action =
          some reaction := by
        refine Client.act_of_snapshots (fun n db (hdb : e.system.states[n]? = some db) => ?_) hact
        rw [snapshots, List.getElem?_map, views, Outbox.views_getElem? (e.sent c) hdb]
        rfl
      refine ⟨e.react c (action.ends e.system.now) reaction, ?_, ?_⟩
      · simp [step, hends, hechoed]
      · cases reaction <;> rfl
  | tick later => exact ⟨{ e with system := s' }, by simp [step, h], rfl⟩
  | deliver sender => exact ⟨{ e with system := s' }, by simp [step, h], rfl⟩

/-- Every run of the system without echoes is one of this system. -/
theorem of_system {s : System} (h : Auctioneer.Reachable world now s) :
    ∃ e, Reachable world now e ∧ e.system = s := by
  induction h with
  | refl => exact ⟨start now, .refl, rfl⟩
  | @step _ s' l _ _ htaken ih =>
      obtain ⟨e, hreach, rfl⟩ := ih
      obtain ⟨e', hstep, hsystem⟩ := step_of_system htaken
      exact ⟨e', hreach.step trivial hstep, hsystem⟩

/-- What an app goes through is a run of its own. -/
theorem client_reachable (h : ReachesUnder world ok now e) (c : ClientId) :
    Client.Reachable (e.system.client c) := by
  refine h.invariant (fun e => Client.Reachable (e.system.client c)) .refl ?_
  intro e l e' _ hreachable _ htaken
  rcases step_cases htaken with ⟨_, _, rfl⟩ | ⟨_, _, _, _, rfl⟩ | ⟨actor, action, _, hact, rfl⟩ |
    ⟨actor, action, client, issues, _, hact, rfl⟩
  · exact hreachable
  · exact hreachable
  · by_cases hc : c = actor
    · subst hc
      refine hreachable.step trivial (l := (e.env world c (action.ends e.system.now), action)) ?_
      simp [Client.step, hact, react]
    · simpa [react, System.react_client_ne hc] using hreachable
  · by_cases hc : c = actor
    · subst hc
      refine hreachable.step trivial (l := (e.env world c (action.ends e.system.now), action)) ?_
      simp [Client.step, hact, react]
    · simpa [react, System.react_client_ne hc] using hreachable

/-- The rule for the database, the wire and what has been sent. -/
theorem net_invariant (inv : Outbox.Net ClientId Issue Database → (ClientId → List Issue) → Prop)
    (hstart : inv (.start .empty) fun _ => [])
    (hdeliver : ∀ {e sender net}, ReachesUnder world ok now e →
      e.system.net.deliver sender Issue.apply = some net →
      inv e.system.net e.sent → inv net e.sent)
    (hissue : ∀ {e c action client issues}, ReachesUnder world ok now e →
      (e.system.client c).act (e.env world c (action.ends e.system.now)) action =
        some (.done client issues) →
      inv e.system.net e.sent →
      inv (e.system.net.issue c issues) (Function.update e.sent c (e.sent c ++ issues)))
    (h : ReachesUnder world ok now e) : inv e.system.net e.sent := by
  refine h.invariant (fun e => inv e.system.net e.sent) hstart ?_
  intro e l e' hprior hinv _ htaken
  rcases step_cases htaken with ⟨_, _, rfl⟩ | ⟨_, _, _, hnet, rfl⟩ | ⟨_, _, _, _, rfl⟩ |
    ⟨_, _, _, _, _, hact, rfl⟩
  · exact hinv
  · have hnext := hdeliver hprior hnet hinv
    exact hnext
  · exact hinv
  · have hnext := hissue hprior hact hinv
    exact hnext

theorem honest (h : ReachesUnder world ok now e) : e.system.net.Honest := by
  refine net_invariant (fun net _ => net.Honest) (.of_start _) ?_ ?_ h
  · intro _ _ _ _ hnet hhonest
    exact hhonest.deliver hnet
  · intro _ _ _ _ _ _ _ hhonest
    exact hhonest.issue _

theorem accounted (h : ReachesUnder world ok now e) :
    Outbox.Accounted Issue.apply e.sent e.system.net := by
  refine net_invariant (fun net sent => Outbox.Accounted Issue.apply sent net)
    (.of_start _) ?_ ?_ h
  · intro _ _ _ _ hnet haccounted
    exact haccounted.deliver hnet
  · intro _ _ _ _ _ _ _ haccounted
    exact haccounted.issue _

theorem shaped (h : ReachesUnder world ok now e) :
    ∀ issue ∈ e.system.net.issued, issue.Shaped := by
  refine net_invariant (fun net _ => ∀ issue ∈ net.issued, issue.Shaped) (by simp) ?_ ?_ h
  · intro _ _ _ _ hnet hshaped
    rwa [Outbox.Net.deliver_issued hnet]
  · intro _ _ _ _ _ _ hact hshaped issue hissue
    rcases List.mem_append.mp hissue with hold | hnew
    · exact hshaped issue hold
    · exact (Client.act_issued hact issue hnew).shaped

/-- The present database with what the app has on its way is one of its views. -/
theorem present_mem_views (h : ReachesUnder world ok now e) (c : ClientId) :
    e.present c ∈ e.views c :=
  Outbox.mem_views.mpr ⟨Outbox.Net.db_mem_states _, ((accounted h).queued c).isInfix⟩

/-- What an app is shown is what a state of the database or a write says. -/
theorem shown_written {A : Type} (read : Database → A → Option Value)
    {sets : Issue → A → Value → Prop}
    (hsets : ∀ issue db a value, read (issue.apply db) a = some value →
      sets issue a value ∨ read db a = some value) {db : Database}
    (hdb : db ∈ e.snapshots c) {a : A} {value : Value}
    (hread : read db a = some value) :
    (∃ issue ∈ e.sent c, sets issue a value) ∨ ∃ db ∈ e.system.states, read db a = some value := by
  obtain ⟨view, hview, rfl⟩ := List.mem_map.mp hdb
  obtain ⟨hbase, hown⟩ := Outbox.mem_views.mp hview
  rcases Outbox.View.shown_written read hsets hread with ⟨issue, hissue, hset⟩ | hkept
  · exact .inl ⟨issue, hown.subset hissue, hset⟩
  · exact .inr ⟨view.base, hbase, hkept⟩

/-- Every field that a product has had was written by an issued write. -/
theorem field_written (h : ReachesUnder world ok now e) :
    Outbox.Written (fun db (cell : Key × ProductField) => db.productField cell.1 cell.2)
      Issue.Sets e.system.net := by
  refine net_invariant (fun net _ => Outbox.Written _ Issue.Sets net)
    (.of_start fun cell => Database.productField_empty cell.2) ?_ ?_ h
  · intro e sender net hprior hnet hwritten
    exact hwritten.deliver (honest hprior) hnet Issue.sets_or_kept
  · intro _ _ _ _ _ _ _ hwritten
    exact hwritten.issue _

/-- And so was every field of a user. -/
theorem userField_written (h : ReachesUnder world ok now e) :
    Outbox.Written (fun db (cell : Key × UserField) => db.userField cell.1 cell.2)
      Issue.SetsUser e.system.net := by
  refine net_invariant (fun net _ => Outbox.Written _ Issue.SetsUser net)
    (.of_start fun _ => rfl) ?_ ?_ h
  · intro e sender net hprior hnet hwritten
    exact hwritten.deliver (honest hprior) hnet Issue.setsUser_or_kept
  · intro _ _ _ _ _ _ _ hwritten
    exact hwritten.issue _

/-- No two writes create one key, and the next key is new. -/
theorem created (h : ReachesUnder world ok now e) :
    (e.system.net.issued.filterMap Issue.creates).Nodup ∧
      ∀ key ∈ e.system.net.issued.filterMap Issue.creates, key < e.system.nextKey := by
  refine h.invariant (fun e => (e.system.net.issued.filterMap Issue.creates).Nodup ∧
    ∀ key ∈ e.system.net.issued.filterMap Issue.creates, key < e.system.nextKey)
    ⟨by simp [start, System.start], by simp [start, System.start]⟩ ?_
  intro e l e' _ hinv _ htaken
  obtain ⟨hnodup, hlt⟩ := hinv
  have hlater : ∀ key ∈ e.system.net.issued.filterMap Issue.creates, key < e.system.nextKey + 1 :=
    fun key hkey => Nat.lt_succ_of_lt (hlt key hkey)
  rcases step_cases htaken with ⟨_, _, rfl⟩ | ⟨_, _, _, hnet, rfl⟩ | ⟨_, _, _, _, rfl⟩ |
    ⟨c, action, client, issues, _, hact, rfl⟩
  · exact ⟨hnodup, hlt⟩
  · dsimp only
    rw [Outbox.Net.deliver_issued hnet]
    exact ⟨hnodup, hlt⟩
  · exact ⟨hnodup, by simpa [react] using hlater⟩
  simp only [react, System.react_done_net, System.react_nextKey, Outbox.Net.issue_issued,
    List.filterMap_append]
  rcases Client.act_creates hact with hnone | hfresh
  · rw [hnone, List.append_nil]
    exact ⟨hnodup, hlater⟩
  · have hkey : (e.env world c (action.ends e.system.now)).freshKey = e.system.nextKey := rfl
    rw [hfresh, hkey]
    refine ⟨?_, ?_⟩
    · rw [List.nodup_append]
      refine ⟨hnodup, List.nodup_singleton _, ?_⟩
      intro old hold new hnew
      obtain rfl := List.mem_singleton.mp hnew
      exact (hlt old hold).ne
    · intro key hmem
      rcases List.mem_append.mp hmem with hold | hnew
      · exact hlater key hold
      · rw [List.mem_singleton.mp hnew]
        exact Nat.lt_succ_self _

end EchoSystem

end Auctioneer
