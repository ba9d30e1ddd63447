import Auctioneer.Proof.Records

/-!
The records of Users. One sign-up creates each of them and three callbacks
update parts of it from snapshots that may be stale; five screens cast its
fields.
-/

namespace Auctioneer

/-- The values that the screens cast a field of a user to. -/
def UserField.Accepts (field : UserField) (value : Value) : Prop :=
  match field with
  | .Username | .Password | .ProfileImage => ∃ text, value = .string text
  | .ItemsAuctioned | .AuctionsWon => ∃ count : ℕ, value = .number count

/-- Every field is there, the counts as non-negative integers and the rest as
strings. -/
def UserRecord.Readable (record : UserRecord) : Prop :=
  ∀ field, ∃ value, record field = some value ∧ field.Accepts value

/-- A write updates users only to values that the screens can cast. -/
def Issue.UpdatesReadable (issue : Issue) : Prop :=
  ∀ key field value, issue.write = .updateUser key field value → field.Accepts value

theorem castInt_natCast (count : ℕ) : castInt (some (.number count)) = some (count : ℤ) := by
  simp [castInt, Value.asInt]

namespace UserRecord.Readable

variable {record : UserRecord}

theorem castString_isSome (h : record.Readable) (field : UserField)
    (hfield : field = .Username ∨ field = .Password ∨ field = .ProfileImage) :
    (castString (record field)).isSome := by
  obtain ⟨value, hvalue, haccepts⟩ := h field
  rcases hfield with rfl | rfl | rfl <;>
    · obtain ⟨text, rfl⟩ := haccepts
      simp [castString_eq_some.mpr hvalue]

theorem castInt_eq (h : record.Readable) (field : UserField)
    (hfield : field = .ItemsAuctioned ∨ field = .AuctionsWon) :
    ∃ count : ℕ, castInt (record field) = some (count : ℤ) := by
  obtain ⟨value, hvalue, haccepts⟩ := h field
  rcases hfield with rfl | rfl <;>
    · obtain ⟨count, rfl⟩ := haccepts
      exact ⟨count, by rw [hvalue, castInt_natCast]⟩

theorem userRecord (username password : String) :
    (SignUpViewController.userRecord username password).Readable := by
  intro field
  cases field with
  | Username => exact ⟨_, rfl, username, rfl⟩
  | Password => exact ⟨_, rfl, password, rfl⟩
  | ItemsAuctioned => exact ⟨_, rfl, 0, rfl⟩
  | AuctionsWon => exact ⟨_, rfl, 0, rfl⟩
  | ProfileImage => exact ⟨_, rfl, "", rfl⟩

theorem update (h : record.Readable) {field : UserField} {value : Value}
    (haccepts : field.Accepts value) :
    UserRecord.Readable (Function.update record field (some value)) := by
  intro other
  by_cases heq : other = field
  · subst heq
    exact ⟨value, Function.update_self _ _ _, haccepts⟩
  · rw [Function.update_of_ne heq]
    exact h other

/-- A task that reads a readable record writes a value that can be cast. -/
theorem accepts (h : record.Readable) {kind : TaskKind} {field : UserField} {value : Value}
    (hassigns : kind.Assigns record field value) : field.Accepts value := by
  cases hassigns with
  | countAuction count hcount =>
      obtain ⟨count', hcount'⟩ := h.castInt_eq .ItemsAuctioned (.inl rfl)
      obtain rfl : (count' : ℤ) = count := Option.some.inj (hcount'.symm.trans hcount)
      exact ⟨count' + 1, by push_cast; rfl⟩
  | countWon screen listed => exact ⟨listed, rfl⟩
  | setProfileImage url => exact ⟨url, rfl⟩

end UserRecord.Readable

/-- Every record of Users is readable. -/
def Database.UsersReadable (db : Database) : Prop :=
  ∀ key record, db.users.lookup key = some record → record.Readable

/-- No cast of a field of a user fails, on any of the screens that read Users. -/
structure Database.UsersRead (db : Database) : Prop where
  login : ∀ username password, (LoginViewController.submitLogin db username password).isSome
  signUp : ∀ username password, (SignUpViewController.signUpButton db username password).isSome
  profile : ∀ isURL userName labels,
    (ProfileViewController.retrieveUser isURL db (some userName) labels).isSome
  profileImage : ∀ signedIn url, (ProfileViewController.setImage db signedIn url).isSome
  openNewAuction : ∀ signedIn, (OpenNewAuctionViewController.countAuction db signedIn).isSome
  auctionWon : ∀ signedIn listed, (AuctionWonViewController.countWon db signedIn listed).isSome

namespace Database.UsersReadable

variable {db : Database}

theorem of_entry (h : db.UsersReadable) {entry : Sigma fun _ : Key => UserRecord}
    (hentry : entry ∈ db.users.entries) : entry.2.Readable :=
  h entry.1 entry.2 (mem_entries_iff.mp hentry)

theorem ownUpdates_isSome (h : db.UsersReadable) (signedIn : Option String) (field : UserField)
    {value : UserRecord → Option Value}
    (hvalue : ∀ record : UserRecord, record.Readable → (value record).isSome) :
    (ownUpdates db signedIn field value).isSome := by
  rw [ownUpdates, Option.isSome_map]
  refine Traverse.isSome_of_forall ?_
  intro entry hentry
  have hreadable := h.of_entry hentry
  obtain ⟨name, hname⟩ := Option.isSome_iff_exists.mp
    (hreadable.castString_isSome .Username (.inl rfl))
  obtain ⟨new, hnew⟩ := Option.isSome_iff_exists.mp (hvalue entry.2 hreadable)
  simp only [hname, hnew, Option.bind_eq_bind, Option.bind_some]
  split <;> rfl

theorem signIn_isSome {entries : List (Sigma fun _ : Key => UserRecord)}
    (h : ∀ entry ∈ entries, entry.2.Readable) (username password : String) :
    (LoginViewController.signIn username password entries).isSome := by
  induction entries with
  | nil => rfl
  | cons entry rest ih =>
      have hreadable := h entry (by simp)
      obtain ⟨name, hname⟩ := Option.isSome_iff_exists.mp
        (hreadable.castString_isSome .Username (.inl rfl))
      obtain ⟨stored, hstored⟩ := Option.isSome_iff_exists.mp
        (hreadable.castString_isSome .Password (.inr (.inl rfl)))
      obtain ⟨others, hothers⟩ := Option.isSome_iff_exists.mp
        (ih fun entry' hentry' => h entry' (by simp [hentry']))
      have hfound : (LoginViewController.authenticates username password entry.2).isSome := by
        simp only [LoginViewController.authenticates, hname, hstored, Option.bind_eq_bind,
          Option.bind_some]
        split <;> rfl
      obtain ⟨found, hfound⟩ := Option.isSome_iff_exists.mp hfound
      simp [LoginViewController.signIn, hfound, hothers]

theorem retrieveUser_isSome (h : db.UsersReadable) (isURL : String → Bool) (userName : String)
    (labels : ProfileViewController.UserLabels) :
    (ProfileViewController.retrieveUser isURL db (some userName) labels).isSome := by
  unfold ProfileViewController.retrieveUser
  refine Traverse.foldlM_isSome ?_ labels
  intro labels entry hentry
  have hreadable := h.of_entry hentry
  obtain ⟨name, hname⟩ := Option.isSome_iff_exists.mp
    (hreadable.castString_isSome .Username (.inl rfl))
  obtain ⟨image, himage⟩ := Option.isSome_iff_exists.mp
    (hreadable.castString_isSome .ProfileImage (.inr (.inr rfl)))
  obtain ⟨won, hwon⟩ := hreadable.castInt_eq .AuctionsWon (.inr rfl)
  obtain ⟨auctioned, hauctioned⟩ := hreadable.castInt_eq .ItemsAuctioned (.inl rfl)
  simp only [hname, himage, hwon, hauctioned, Option.bind_eq_bind, Option.bind_some]
  split <;> rfl

/-- Readable records are read by every screen. -/
theorem usersRead (h : db.UsersReadable) : db.UsersRead where
  login username password := by
    obtain ⟨found, hfound⟩ := Option.isSome_iff_exists.mp
      (signIn_isSome (fun entry hentry => h.of_entry hentry) username password)
    simp [LoginViewController.submitLogin, hfound]
  signUp username password := by
    have hnames : (usernames db).isSome :=
      Traverse.isSome_of_forall fun entry hentry =>
        (h.of_entry hentry).castString_isSome .Username (.inl rfl)
    obtain ⟨names, hnames⟩ := Option.isSome_iff_exists.mp hnames
    simp [SignUpViewController.signUpButton, hnames]
  profile isURL userName labels := h.retrieveUser_isSome isURL userName labels
  profileImage signedIn url := h.ownUpdates_isSome signedIn .ProfileImage fun _ _ => rfl
  openNewAuction signedIn := by
    refine h.ownUpdates_isSome signedIn .ItemsAuctioned ?_
    intro record hreadable
    obtain ⟨count, hcount⟩ := hreadable.castInt_eq .ItemsAuctioned (.inl rfl)
    simp [hcount]
  auctionWon signedIn listed := h.ownUpdates_isSome signedIn .AuctionsWon fun _ _ => rfl

/-- A write keeps the records readable when the users that it updates are
there. -/
theorem apply {world : World} {dbs : List Database} {issue : Issue} (h : db.UsersReadable)
    (hbacked : issue.Backed world dbs) (haccepts : issue.UpdatesReadable)
    (hthere : ∀ key field value, issue.write = .updateUser key field value →
      (db.users.lookup key).isSome) :
    (issue.apply db).UsersReadable := by
  intro key record hlookup
  rcases issue.users_after db key with hsame | ⟨added, hwrite, hnew⟩ |
    ⟨field, value, hwrite, hnew⟩
  · exact h key record (hsame.symm.trans hlookup)
  · obtain ⟨username, password, rfl⟩ := hbacked.of_setUser hwrite
    obtain rfl := Option.some.inj (hnew.symm.trans hlookup)
    exact .userRecord username password
  · obtain ⟨old, hold⟩ := Option.isSome_iff_exists.mp (hthere key field value hwrite)
    rw [hold, Option.getD_some] at hnew
    obtain rfl := Option.some.inj (hnew.symm.trans hlookup)
    exact (h key old hold).update (haccepts key field value hwrite)

end Database.UsersReadable

namespace System

variable {world : World} {ok : System → Label → Prop} {now : Date} {s : System}

/-- A user that an issued write updates is there. -/
theorem updated_user (h : ReachesUnder world ok now s) {issue : Issue}
    (hissue : issue ∈ s.net.issued) {key : Key} {field : UserField} {value : Value}
    (hwrite : issue.write = .updateUser key field value) : (s.db.users.lookup key).isSome := by
  obtain ⟨⟨source, hsource, name, hname⟩, _⟩ := (issue_backed h issue hissue).of_updateUser hwrite
  obtain ⟨record, hrecord, _⟩ := Database.username_eq_some.mp (username_stable h hsource hname)
  simp [hrecord]

/-- One event: what it reads is readable, and so is what it writes. -/
theorem updatesReadable_of_act (hread : ∀ db ∈ s.states, db.UsersReadable) {c : ClientId}
    {action : Action} {client : Client} {issues : List Issue}
    (hact : (s.client c).act (s.env world c (action.ends s.now)) action =
      some (.done client issues)) :
    ∀ issue ∈ issues, issue.UpdatesReadable := by
  intro issue hissue key field value hwrite
  cases Client.act_issues hact with
  | task _ _ pending users writes _ husers hwrites =>
      obtain ⟨write, hmem, rfl⟩ := List.mem_map.mp hissue
      obtain ⟨_, _, _, _, record, rfl, _, hlookup, _, hassigns⟩ :=
        Client.taskWrites_assigns hwrites hmem
      obtain ⟨rfl, rfl, rfl⟩ := Write.updateUser.inj hwrite
      exact (hread users husers _ record hlookup).accepts hassigns
  | bid =>
      rcases HomeFeedDetailsViewController.mem_bidIssues.mp hissue with rfl | rfl <;> cases hwrite
  | silent => cases hissue
  | _ =>
      obtain rfl := List.mem_singleton.mp hissue
      cases hwrite

theorem users_readable (h : ReachesUnder world ok now s) :
    (∀ db ∈ s.states, db.UsersReadable) ∧ ∀ issue ∈ s.net.issued, issue.UpdatesReadable := by
  refine net_invariant (fun net => (∀ db ∈ net.states, db.UsersReadable) ∧
    ∀ issue ∈ net.issued, issue.UpdatesReadable) ?_ ?_ ?_ h
  · refine ⟨?_, by simp⟩
    intro db hdb key record hlookup
    obtain rfl : db = .empty := by simpa using hdb
    cases hlookup
  · rintro s sender net hprior _ hnet ⟨hread, hupdates⟩
    obtain ⟨issue, _, _, hwire, hdb⟩ := delivered_eq hnet
    have hissue := (honest hprior).mem_issued hwire
    refine ⟨?_, ?_⟩
    · intro db hmem
      rw [Outbox.Net.deliver_states hnet, List.mem_append, List.mem_singleton] at hmem
      rcases hmem with hold | rfl
      · exact hread db hold
      · rw [hdb]
        exact (hread _ (Outbox.Net.db_mem_states _)).apply (issue_backed hprior issue hissue)
          (hupdates issue hissue) fun _ _ _ hwrite => updated_user hprior hissue hwrite
    · rwa [Outbox.Net.deliver_issued hnet]
  · rintro s c action client issues _ _ hact ⟨hread, hupdates⟩
    refine ⟨hread, ?_⟩
    intro issue hissue
    rw [Outbox.Net.issue_issued, List.mem_append] at hissue
    rcases hissue with hold | hnew
    · exact hupdates issue hold
    · exact updatesReadable_of_act hread hact issue hnew

/-- Every state of Users is readable and read by every screen, and the present
one still has each record that an earlier one had, with its name and its
password. -/
def UserRecordsKept (s : System) : Prop :=
  ∀ db ∈ s.states, db.UsersReadable ∧ db.UsersRead ∧
    ∀ key record, db.users.lookup key = some record →
      ∃ record', s.db.users.lookup key = some record' ∧
        record' .Username = record .Username ∧ record' .Password = record .Password

theorem user_records_kept (h : Reachable world now s) : s.UserRecordsKept := by
  intro db hdb
  have hreadable := (users_readable h).1 db hdb
  refine ⟨hreadable, hreadable.usersRead, ?_⟩
  intro key record hrecord
  exact user_stable h hdb hrecord

/-- Sue's auction of the lamp is counted. -/
def lampCounted : List Label :=
  Scenario.lampOpened ++ [.act 0 (.usersEvent 0 4), .deliver 0]

theorem user_records_kept_of_sue :
    ∃ s, Reachable Scenario.world Scenario.opening s ∧
      s.db.userField 0 .ItemsAuctioned = some (.number 1) ∧ s.UserRecordsKept := by
  obtain ⟨s, hreach, hcount⟩ : ∃ s, Reachable Scenario.world Scenario.opening s ∧
      s.db.userField 0 .ItemsAuctioned = some (.number 1) :=
    Machine.exists_reachable lampCounted (by decide +kernel)
  exact ⟨s, hreach, hcount, user_records_kept hreach⟩

end System

end Auctioneer
