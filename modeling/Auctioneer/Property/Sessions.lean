import Auctioneer.Proof.EchoRuns
import Auctioneer.Property.Accounts

/-!
Who can be signed in. `Submit_Login` judges the typed credentials by a snapshot
of Users that may be old, and that may show a sign-up of the app's own before it
has arrived; and nothing checks the session afterwards. But names and passwords
of records never change, so that the record of a session has the credentials
that were typed: in the database, or on its way from the app.
-/

namespace Auctioneer

namespace LoginViewController

variable {db : Database} {record : UserRecord} {username password : String}

theorem authenticates_eq_true (h : authenticates username password record = some true) :
    record .Username = some (.string username) ∧
      castString (record .Password) = some password := by
  simp only [authenticates, Option.bind_eq_bind, Option.bind_eq_some_iff, castString_eq_some] at h
  obtain ⟨name, hname, h⟩ := h
  split at h
  · next heq =>
    obtain ⟨stored, hstored, hsame⟩ := Option.bind_eq_some_iff.mp h
    have heq' : stored = password := by simpa using hsame
    exact ⟨heq ▸ hname, castString_eq_some.mpr (heq' ▸ castString_eq_some.mp hstored)⟩
  · simp at h

/-- The loop keeps the records that authenticate. -/
theorem authenticates_of_mem {pairs : List (Sigma fun _ : Key => UserRecord)}
    {found : List (Key × String)} (h : signIn username password pairs = some found)
    {entry : Key × String} (hentry : entry ∈ found) :
    entry.2 = username ∧ ∃ record,
      (⟨entry.1, record⟩ : Sigma fun _ : Key => UserRecord) ∈ pairs ∧
        authenticates username password record = some true := by
  induction pairs generalizing found with
  | nil =>
      obtain rfl := Option.some.inj h
      cases hentry
  | cons pair rest ih =>
      simp only [signIn, Option.bind_eq_bind, Option.bind_eq_some_iff, Option.some.injEq] at h
      obtain ⟨authentic, hauthentic, others, hothers, rfl⟩ := h
      have hlater : entry ∈ others → entry.2 = username ∧ ∃ record,
          (⟨entry.1, record⟩ : Sigma fun _ : Key => UserRecord) ∈ pair :: rest ∧
            authenticates username password record = some true := by
        intro hmem
        obtain ⟨hname, record, hrecord, htrue⟩ := ih hothers hmem
        exact ⟨hname, record, List.mem_cons_of_mem pair hrecord, htrue⟩
      cases authentic with
      | false => exact hlater (by simpa using hentry)
      | true =>
          rcases List.mem_cons.mp (by simpa using hentry) with rfl | hmem
          · exact ⟨rfl, pair.2, List.mem_cons_self, hauthentic⟩
          · exact hlater hmem

/-- A login sets the session to a record of its snapshot with the credentials
that were typed. -/
theorem submitLogin_authenticates {outcome : Outcome} {key : Key} {name : String}
    (h : submitLogin db username password = some outcome)
    (hsession : outcome.session = some (key, name)) :
    name = username ∧ db.Authenticates key username password := by
  simp only [submitLogin, Option.bind_eq_bind, Option.bind_eq_some_iff, Option.some.injEq] at h
  obtain ⟨found, hfound, rfl⟩ := h
  obtain ⟨hname, record, hrecord, htrue⟩ :=
    authenticates_of_mem hfound (List.mem_of_getLast? hsession)
  obtain ⟨husername, hpassword⟩ := authenticates_eq_true htrue
  have hlookup : db.users.lookup key = some record := mem_entries_iff.mp hrecord
  refine ⟨hname, Database.username_eq_some.mpr ⟨record, hlookup, husername⟩, ?_⟩
  simp [Database.userField, hlookup, hpassword]

end LoginViewController

namespace Client

variable {env : Env} {client client' : Client} {action : Action} {issues : List Issue}

/-- `SignedIn_UserKey` and `SignedIn_UserName`. -/
def session (client : Client) : Option Key × Option String :=
  (client.signedInUserKey, client.signedInUserName)

theorem pushDetails_session (client : Client) (bar : TabBar) (ref : Ref) (item : AuctionItem) :
    (client.pushDetails bar ref item).session = client.session := by
  unfold pushDetails
  split <;> rfl

/-- A login with its snapshot: nothing happens, or the record found has the
credentials that were typed. -/
theorem act_login {snapshot : Nat} {username password : String}
    (h : client.act env (.login snapshot username password) = some (.done client' issues)) :
    client' = client ∨ ∃ key db, db ∈ env.snapshots ∧
      db.Authenticates key username password ∧ client' = client.presentMain env key username := by
  have hrunning := act_eq_done h
  simp only [act, hrunning, Bool.false_eq_true, if_false, login, Option.bind_eq_bind,
    Option.bind_eq_some_iff, Option.ite_none_left_eq_some, Option.some.injEq,
    Reaction.orCrash_eq_done] at h
  obtain ⟨users, husers, _, outcome, houtcome, h⟩ := h
  split at h
  · exact .inl (Reaction.done.inj h).1.symm
  · next key name hsession =>
    obtain ⟨rfl, hauthentic⟩ := LoginViewController.submitLogin_authenticates houtcome hsession
    exact .inr ⟨key, users, List.mem_of_getElem? husers, hauthentic, (Reaction.done.inj h).1.symm⟩

/-- What an event does to the session: nothing, with no tab bar where there was
none, or it is a login with credentials that a snapshot has. -/
theorem act_signsIn (h : client.act env action = some (.done client' issues)) :
    (client'.session = client.session ∧ (client.tabBar = none → client'.tabBar = none)) ∨
      ∃ snapshot username password key db,
        action = .login snapshot username password ∧ db ∈ env.snapshots ∧
          db.Authenticates key username password ∧
          client'.session = (some key, some username) := by
  cases act_effect h with
  | worked => exact .inl ⟨rfl, id⟩
  | turned _ _ _ _ hbar => exact .inl ⟨rfl, fun hnone => by simp [hnone] at hbar⟩
  | dismissed => exact .inl ⟨rfl, fun _ => rfl⟩
  | presented snapshot username password key db hnone =>
      rcases act_login h with hsame | ⟨key', users, husers, hauthentic, hpresented⟩
      · have hbar := congrArg Client.tabBar hsame
        rw [hnone] at hbar
        cases hbar
      · exact .inr ⟨snapshot, username, password, key', users, rfl, husers, hauthentic,
          by rw [hpresented]; rfl⟩
  | yourListing _ hbar => exact .inl ⟨rfl, fun hnone => by simp [hnone] at hbar⟩
  | auctionWon _ _ hbar => exact .inl ⟨rfl, fun hnone => by simp [hnone] at hbar⟩
  | profile _ _ hbar => exact .inl ⟨rfl, fun hnone => by simp [hnone] at hbar⟩
  | redrawn => exact .inl ⟨rfl, id⟩
  | pushed _ _ _ _ _ _ hbar =>
      exact .inl ⟨pushDetails_session _ _ _ _, fun hnone => by simp [hnone] at hbar⟩
  | refreshed => exact .inl ⟨rfl, id⟩
  | listed => exact .inl ⟨rfl, id⟩
  | priced => exact .inl ⟨rfl, id⟩
  | priceRead => exact .inl ⟨rfl, id⟩

end Client

/-- A sign-up gives its record a name and a password, and no other write touches
them. -/
theorem Issue.Shaped.credential_kept {issue : Issue} (h : issue.Shaped) {db : Database}
    {key : Key} {field : UserField} (hfield : field = .Username ∨ field = .Password)
    (hsome : (db.userField key field).isSome) : ((issue.apply db).userField key field).isSome := by
  rcases issue.users_after db key with hsame | ⟨record, hwrite, hnew⟩ |
    ⟨updated, value, hwrite, hnew⟩
  · rwa [Database.userField, hsame]
  · obtain ⟨username, password, rfl⟩ := h.signUp key record hwrite
    rw [Database.userField, hnew]
    rcases hfield with rfl | rfl <;> rfl
  · obtain ⟨hname, hpassword⟩ := h.update key updated value hwrite
    have hother : field ≠ updated := by
      rcases hfield with rfl | rfl
      · exact hname.symm
      · exact hpassword.symm
    obtain ⟨stored, hstored⟩ := Option.isSome_iff_exists.mp hsome
    obtain ⟨record, hrecord, hvalue⟩ := Database.userField_eq_some.mp hstored
    simp [Database.userField, hnew, hrecord, Function.update_of_ne hother, hvalue]

namespace EchoSystem

variable {world : World} {ok : EchoSystem → Label → Prop} {now : Date} {e e' : EchoSystem}
  {l : Label} {c : ClientId} {key : Key} {field : UserField} {value : Value}

/-- The record has this value in a state of the database, or a write of the app
gives it. -/
def Gives (e : EchoSystem) (c : ClientId) (key : Key) (field : UserField) (value : Value) : Prop :=
  (∃ db ∈ e.system.states, db.userField key field = some value) ∨
    ∃ issue ∈ e.sent c, issue.SetsUser (key, field) value

theorem gives_of_shown {db : Database} (hdb : db ∈ e.snapshots c)
    (hvalue : db.userField key field = some value) : e.Gives c key field value :=
  (shown_written (fun db (cell : Key × UserField) => db.userField cell.1 cell.2)
    (a := (key, field)) Issue.setsUser_or_kept hdb hvalue).symm

theorem Gives.step (h : e.Gives c key field value) (hstep : e.step world l = some e') :
    e'.Gives c key field value := by
  refine h.imp (fun ⟨db, hdb, hvalue⟩ => ⟨db, step_states hstep hdb, hvalue⟩)
    fun ⟨issue, hissue, hsets⟩ => ⟨issue, ?_, hsets⟩
  exact step_sent hstep c hissue

/-- The write that gives a record a name or a password is its sign-up, so that
all of them give it the same one. -/
theorem setsUser_unique (h : ReachesUnder world ok now e)
    (hfield : field = .Username ∨ field = .Password) {issue issue' : Issue} {value' : Value}
    (hissue : issue ∈ e.system.net.issued) (hissue' : issue' ∈ e.system.net.issued)
    (hsets : issue.SetsUser (key, field) value) (hsets' : issue'.SetsUser (key, field) value') :
    value = value' := by
  have hcreates : ∀ issue ∈ e.system.net.issued, ∀ value, issue.SetsUser (key, field) value →
      issue.creates = some key ∧ ∃ record, issue.write = .setUser key record ∧
        record field = some value := by
    rintro ⟨write, call⟩ hmem value hsets
    cases write with
    | setUser created record =>
        obtain ⟨rfl, hvalue⟩ := hsets
        exact ⟨rfl, record, rfl, hvalue⟩
    | updateUser updated written new =>
        obtain ⟨hname, hpassword⟩ := (shaped h _ hmem).update _ _ _ rfl
        obtain ⟨rfl, rfl⟩ := Prod.mk.inj hsets.1
        rcases hfield with rfl | rfl
        · exact absurd rfl hname
        · exact absurd rfl hpassword
    | _ => cases hsets
  obtain ⟨hkey, record, hwrite, hvalue⟩ := hcreates issue hissue value hsets
  obtain ⟨hkey', record', hwrite', hvalue'⟩ := hcreates issue' hissue' value' hsets'
  obtain rfl := Outbox.eq_of_nodup_filterMap (created h).1 hissue hissue' hkey hkey'
  obtain ⟨_, rfl⟩ := Write.setUser.inj (hwrite.symm.trans hwrite')
  exact Option.some.inj (hvalue.symm.trans hvalue')

/-- A record that has had a name or a password has one. -/
theorem credential_present (h : ReachesUnder world ok now e)
    (hfield : field = .Username ∨ field = .Password) :
    ∀ db ∈ e.system.states, (db.userField key field).isSome →
      (e.system.db.userField key field).isSome := by
  refine net_invariant (fun net _ => ∀ db ∈ net.states, (db.userField key field).isSome →
    (net.db.userField key field).isSome) (by simp) ?_ ?_ h
  · intro e sender net hprior hnet hinv db hdb hsome
    obtain ⟨issue, _, _, hwire, happlied⟩ := System.delivered_eq hnet
    rw [Outbox.Net.deliver_states hnet, List.mem_append, List.mem_singleton] at hdb
    rcases hdb with hold | rfl
    · rw [happlied]
      exact (shaped hprior issue ((honest hprior).mem_issued hwire)).credential_kept hfield
        (hinv db hold hsome)
    · exact hsome
  · intro _ _ _ _ _ _ _ hinv
    exact hinv

/-- The present database shows it with the writes on top that the app has on
their way. -/
theorem present_of_gives (h : ReachesUnder world ok now e)
    (hfield : field = .Username ∨ field = .Password) (hgives : e.Gives c key field value) :
    ((e.present c).shown Issue.apply).userField key field = some value := by
  have hissued : ∀ issue ∈ (e.present c).own, issue ∈ e.system.net.issued := fun issue hissue =>
    (accounted h).issued c issue ((Outbox.mem_views.mp (present_mem_views h c)).2.subset hissue)
  have hkeep : ∀ issue ∈ (e.present c).own, ∀ db : Database, (db.userField key field).isSome →
      ((issue.apply db).userField key field).isSome := fun issue hissue _ =>
    (shaped h issue (hissued issue hissue)).credential_kept hfield
  have hstored : ∀ db ∈ e.system.states, (db.userField key field).isSome →
      (((e.present c).shown Issue.apply).userField key field).isSome := fun db hdb hsome =>
    (e.present c).shown_of_base hkeep (credential_present h hfield db hdb hsome)
  obtain ⟨source, hsource, hsets⟩ : ∃ issue ∈ e.system.net.issued,
      issue.SetsUser (key, field) value := by
    rcases hgives with ⟨db, hdb, hvalue⟩ | ⟨issue, hissue, hsets⟩
    · exact userField_written h db hdb (key, field) value hvalue
    · exact ⟨issue, (accounted h).issued c issue hissue, hsets⟩
  obtain ⟨value', hvalue'⟩ : ∃ value',
      ((e.present c).shown Issue.apply).userField key field = some value' := by
    rw [← Option.isSome_iff_exists]
    rcases hgives with ⟨db, hdb, hvalue⟩ | ⟨issue, hissue, hsets⟩
    · exact hstored db hdb (by simp [hvalue])
    · have hbrings : ∀ db, ((issue.apply db).userField key field).isSome := fun db => by
        simp [Issue.userField_of_sets hsets db]
      rcases (accounted h).settled c issue hissue with hwire | ⟨before, hafter⟩
      · exact (e.present c).shown_of_mem ((Outbox.Net.mem_outbox _ c).mpr hwire) hkeep hbrings
      · exact hstored _ hafter (hbrings before)
  rcases Outbox.View.shown_written (fun (db : Database) (cell : Key × UserField) =>
    db.userField cell.1 cell.2) (a := (key, field)) Issue.setsUser_or_kept hvalue'
    with ⟨issue, hissue, hsets'⟩ | hbase
  · rw [hvalue', setsUser_unique h hfield (hissued issue hissue) hsource hsets' hsets]
  · obtain ⟨issue, hissue, hsets'⟩ := userField_written h _ (Outbox.Net.db_mem_states _)
      (key, field) value' hbase
    rw [hvalue', setsUser_unique h hfield hissue hsource hsets' hsets]

/-- Nobody has signed in on the client, or the session is that of a login of the
run, whose credentials the record of the session has now, as the app sees it. -/
def SessionTyped (e : EchoSystem) (run : List Label) (c : ClientId) : Prop :=
  ((e.system.client c).session = (none, none) ∧ (e.system.client c).tabBar = none) ∨
    ∃ key name password before snapshot after,
      (e.system.client c).session = (some key, some name) ∧
        run = before ++ .act c (.login snapshot name password) :: after ∧
        ((e.present c).shown Issue.apply).Authenticates key name password

/-- One step: the session is as it was, and there is no tab bar where there was
none, or the step is a login. -/
theorem step_session (hstep : e.step world l = some e') (c : ClientId) :
    ((e'.system.client c).session = (e.system.client c).session ∧
        ((e.system.client c).tabBar = none → (e'.system.client c).tabBar = none)) ∨
      ∃ snapshot username password key db,
        l = .act c (.login snapshot username password) ∧ db ∈ e.snapshots c ∧
          db.Authenticates key username password ∧
          (e'.system.client c).session = (some key, some username) := by
  rcases step_client hstep c with heq | heq | ⟨action, issues, rfl, hact⟩
  · exact .inl (by simp [heq])
  · exact .inl (by simp [heq, Client.session])
  · rcases Client.act_signsIn hact with hkept | ⟨snapshot, username, password, key, db, rfl, hdb,
      hauthentic, hsession⟩
    · exact .inl hkept
    · exact .inr ⟨snapshot, username, password, key, db, rfl, hdb, hauthentic, hsession⟩

/-- The login of a session, and where its record had the credentials typed. -/
theorem session_given (run : List Label) (c : ClientId)
    (hrun : Machine.run (step world) (start now) run = some e) :
    ((e.system.client c).session = (none, none) ∧ (e.system.client c).tabBar = none) ∨
      ∃ key name password before snapshot after,
        (e.system.client c).session = (some key, some name) ∧
          run = before ++ .act c (.login snapshot name password) :: after ∧
          e.Gives c key .Username (.string name) ∧ e.Gives c key .Password (.string password) := by
  induction run using List.reverseRecOn generalizing e with
  | nil =>
      obtain rfl := Option.some.inj hrun
      exact .inl ⟨rfl, rfl⟩
  | append_singleton run l ih =>
      rw [Machine.run_concat] at hrun
      obtain ⟨prior, hprior, hstep⟩ := Option.bind_eq_some_iff.mp hrun
      rcases step_session hstep c with ⟨hsession, hbar⟩ |
        ⟨snapshot, username, password, key, db, rfl, hdb, ⟨hname, hpassword⟩, hsession⟩
      · rcases ih hprior with ⟨hnone, hnobar⟩ |
          ⟨key, name, password, before, snapshot, after, hset, rfl, hname, hpassword⟩
        · exact .inl ⟨hsession.trans hnone, hbar hnobar⟩
        · exact .inr ⟨key, name, password, before, snapshot, after ++ [l],
            hsession.trans hset, by simp, hname.step hstep, hpassword.step hstep⟩
      · refine .inr ⟨key, username, password, run, snapshot, [], hsession, rfl, ?_, ?_⟩
        · exact (gives_of_shown hdb (castString_eq_some.mp hname)).step hstep
        · exact (gives_of_shown hdb (castString_eq_some.mp hpassword)).step hstep

/-- Whoever is signed in on a client has typed, there, the name and the password
that the record of the session has at present: in the database, with the writes
on top that the app has on their way. -/
theorem session_typed (run : List Label) (c : ClientId)
    (hrun : Machine.run (step world) (start now) run = some e) : e.SessionTyped run c := by
  have hreach := Machine.reachable_of_run _ hrun
  rcases session_given run c hrun with hnobody |
    ⟨key, name, password, before, snapshot, after, hsession, hlogin, hname, hpassword⟩
  · exact .inl hnobody
  · refine .inr ⟨key, name, password, before, snapshot, after, hsession, hlogin, ?_, ?_⟩
    · exact castString_eq_some.mpr (present_of_gives hreach (.inl rfl) hname)
    · exact castString_eq_some.mpr (present_of_gives hreach (.inr rfl) hpassword)

/-- Sue has opened her profile, which observes Users, and signs out. Amy signs up
and in on the same app before her record has arrived. -/
def signedInEarly : List Label :=
  [.act 0 (.signUp 0 "sue" "p"), .deliver 0, .act 0 (.login 1 "sue" "p"),
    .act 0 (.selectTab .profile), .act 0 .signOut, .act 0 (.signUp 1 "amy" "q"),
    .act 0 (.login 9 "amy" "q")]

theorem session_typed_amy :
    ∃ e, Machine.run (step Scenario.world) (start Scenario.opening) signedInEarly = some e ∧
      (e.system.client 0).session = (some 4, some "amy") ∧ e.system.db.username 4 = none ∧
      e.SessionTyped signedInEarly 0 := by
  obtain ⟨e, hrun, hsession, hnone⟩ : ∃ e ∈ Machine.run (step Scenario.world)
      (start Scenario.opening) signedInEarly,
      (e.system.client 0).session = (some 4, some "amy") ∧
        e.system.db.username 4 = none := by
    decide +kernel
  exact ⟨e, hrun, hsession, hnone, session_typed _ 0 hrun⟩

end EchoSystem

end Auctioneer
