import Auctioneer.Property.UserRecords

/-!
What a press of the login and of the sign-up button leads to. Neither stops at
an empty text: the login goes through the whole table and then reports a failure
in every case, and the sign-up refuses names that are taken, nothing else.
-/

namespace Auctioneer

namespace Database

variable (db : Database) (key : Key)

/-- The record has this name and this password. -/
def Authenticates (username password : String) : Prop :=
  db.username key = some username ∧ castString (db.userField key .Password) = some password

end Database

namespace LoginViewController

/-- The press sets the session to a record with these credentials, presents the
main screen once and reports nothing, or there is none and it only reports the
failure. -/
def OneOutcome (db : Database) (username password : String) : Prop :=
  ∃ outcome, submitLogin db username password = some outcome ∧
    ((∃ key, db.Authenticates key username password ∧
        outcome = ⟨some (key, username), 1, []⟩) ∨
      (∀ key, ¬ db.Authenticates key username password) ∧ outcome = ⟨none, 0, [loginFailed]⟩)

variable {db : Database} {username password : String}

theorem authenticates_eq_some {record : UserRecord} (h : record.Readable)
    (username password : String) :
    ∃ found, authenticates username password record = some found ∧
      (found = true ↔ castString (record .Username) = some username ∧
        castString (record .Password) = some password) := by
  obtain ⟨name, hname⟩ := Option.isSome_iff_exists.mp (h.castString_isSome .Username (.inl rfl))
  obtain ⟨stored, hstored⟩ :=
    Option.isSome_iff_exists.mp (h.castString_isSome .Password (.inr (.inl rfl)))
  by_cases heq : name = username
  · exact ⟨stored = password, by simp [authenticates, hname, hstored, heq],
      by simp [hname, hstored, heq]⟩
  · exact ⟨false, by simp [authenticates, hname, heq], by simp [hname, heq]⟩

/-- The loop finds nobody exactly when no record has the credentials. -/
theorem signIn_eq_nil_iff {entries : List (Sigma fun _ : Key => UserRecord)}
    (h : ∀ entry ∈ entries, entry.2.Readable) :
    signIn username password entries = some [] ↔ ∀ entry ∈ entries,
      ¬ (castString (entry.2 .Username) = some username ∧
        castString (entry.2 .Password) = some password) := by
  induction entries with
  | nil => simp [signIn]
  | cons entry rest ih =>
      have hrest : ∀ other ∈ rest, other.2.Readable := fun other hother =>
        h other (List.mem_cons_of_mem _ hother)
      obtain ⟨found, hfound, hiff⟩ :=
        authenticates_eq_some (h entry List.mem_cons_self) username password
      obtain ⟨others, hothers⟩ := Option.isSome_iff_exists.mp
        (Database.UsersReadable.signIn_isSome hrest username password)
      rw [List.forall_mem_cons, ← ih hrest, ← hiff, hothers]
      cases found <;> simp [signIn, hfound, hothers]

theorem authenticates_iff_entry :
    (∀ key, ¬ db.Authenticates key username password) ↔ ∀ entry ∈ db.users.entries,
      ¬ (castString (entry.2 .Username) = some username ∧
        castString (entry.2 .Password) = some password) := by
  constructor
  · rintro hnone ⟨key, record⟩ hentry
    have hrecord := mem_entries_iff.mp hentry
    simpa [Database.Authenticates, Database.username, Database.userField, hrecord]
      using hnone key
  · rintro hnone key ⟨hname, hpassword⟩
    obtain ⟨record, hrecord, hstored⟩ := Database.username_eq_some.mp hname
    refine hnone ⟨key, record⟩ (mem_entries_iff.mpr hrecord) ⟨castString_eq_some.mpr hstored, ?_⟩
    simpa [Database.userField, hrecord] using hpassword

/-- A failure is reported in every case, after the empty texts. -/
theorem submitLogin_alerts {outcome : Outcome}
    (h : submitLogin db username password = some outcome) :
    outcome.alerts = (if username = "" then [SignUpViewController.missingUsername] else []) ++
      (if password = "" then [SignUpViewController.missingPassword] else []) ++ [loginFailed] := by
  obtain ⟨found, _, houtcome⟩ := Option.bind_eq_some_iff.mp h
  rw [← Option.some.inj houtcome]

/-- On a table that can be read, the press has one outcome exactly when nobody
has the credentials and neither is empty. -/
theorem oneOutcome_iff (h : db.UsersReadable) :
    OneOutcome db username password ↔
      (∀ key, ¬ db.Authenticates key username password) ∧ username ≠ "" ∧ password ≠ "" := by
  have hentries : ∀ entry ∈ db.users.entries, entry.2.Readable := fun _ => h.of_entry
  constructor
  · rintro ⟨outcome, houtcome, ⟨key, _, rfl⟩ | ⟨hnone, rfl⟩⟩
    · have halerts := submitLogin_alerts houtcome
      simp at halerts
    · have halerts := congrArg List.length (submitLogin_alerts houtcome)
      refine ⟨hnone, ?_⟩
      by_cases husername : username = "" <;> by_cases hpassword : password = "" <;>
        simp [husername, hpassword] at halerts ⊢
  · rintro ⟨hnone, husername, hpassword⟩
    have hfound := (signIn_eq_nil_iff hentries).mpr (authenticates_iff_entry.mp hnone)
    exact ⟨⟨none, 0, [loginFailed]⟩, by simp [submitLogin, hfound, husername, hpassword],
      .inr ⟨hnone, rfl⟩⟩

end LoginViewController

namespace System

variable {world : World} {now : Date} {s : System} {db : Database} {username password : String}

/-- Whatever sign-ups and other writes the table comes from, a login has its one
outcome exactly when it is a failed one with two texts. -/
theorem login_one_outcome_iff (h : Reachable world now s) (hdb : db ∈ s.states) :
    LoginViewController.OneOutcome db username password ↔
      (∀ key, ¬ db.Authenticates key username password) ∧ username ≠ "" ∧ password ≠ "" :=
  LoginViewController.oneOutcome_iff ((users_readable h).1 db hdb)

def sueSignedUp : List Label := [.act 0 (.signUp 0 "sue" "p"), .deliver 0]

/-- Sue mistypes her password. -/
theorem login_one_outcome_of_typo :
    ∃ s, Reachable Scenario.world Scenario.opening s ∧ s.db.username 0 = some "sue" ∧
      LoginViewController.OneOutcome s.db "sue" "q" := by
  obtain ⟨s, hreach, hname, hpasswords⟩ :
      ∃ s, Reachable Scenario.world Scenario.opening s ∧ s.db.username 0 = some "sue" ∧
        ∀ entry ∈ s.db.users.entries, castString (entry.2 .Password) ≠ some "q" :=
    Machine.exists_reachable sueSignedUp (by decide +kernel)
  refine ⟨s, hreach, hname, (login_one_outcome_iff hreach s.net.db_mem_states).mpr
    ⟨LoginViewController.authenticates_iff_entry.mpr ?_, by decide, by decide⟩⟩
  intro entry hentry hboth
  exact hpasswords entry hentry hboth.2

/-- Sue signs in with her password. -/
theorem not_login_one_outcome :
    ¬ ∀ (world : World) (now : Date) (s : System) (db : Database) (username password : String),
      Reachable world now s → db ∈ s.states →
      LoginViewController.OneOutcome db username password := by
  intro hone
  obtain ⟨s, hreach, hfailed, hkey⟩ : ∃ s, Reachable Scenario.world Scenario.opening s ∧
      (LoginViewController.submitLogin s.db "sue" "p").map (·.alerts) =
        some [LoginViewController.loginFailed] ∧
      s.db.username 0 = some "sue" ∧ castString (s.db.userField 0 .Password) = some "p" :=
    Machine.exists_reachable sueSignedUp (by decide +kernel)
  obtain ⟨outcome, houtcome, ⟨key, _, rfl⟩ | ⟨hnone, _⟩⟩ :=
    hone _ _ s s.db "sue" "p" hreach s.net.db_mem_states
  · rw [houtcome] at hfailed
    cases hfailed
  · exact hnone 0 hkey

end System

namespace SignUpViewController

/-- The table after a press that reads it as it is, with the alerts shown: the
record that is added gets the given key. -/
def signUpAlone (db : Database) (key : Key) (username password : String) :
    Option (List Alert × Database) :=
  (signUpButton db username password).map fun outcome =>
    (outcome.alerts, outcome.record.elim db fun record => (Write.setUser key record).apply db)

/-- With two texts and a name that is not taken, one record is added. Otherwise
what is wrong is reported, and no success, and nothing changes. -/
def RefusesCleanly (db : Database) (key : Key) (username password : String) : Prop :=
  ∃ alerts after, signUpAlone db key username password = some (alerts, after) ∧
    ((username ≠ "" ∧ password ≠ "" ∧ ∀ other, db.username other ≠ some username) →
      alerts = [success] ∧
        after = { db with users := db.users.insert key (userRecord username password) }) ∧
    (¬ (username ≠ "" ∧ password ≠ "" ∧ ∀ other, db.username other ≠ some username) →
      after = db ∧ success ∉ alerts ∧ (username = "" → missingUsername ∈ alerts) ∧
        (password = "" → missingPassword ∈ alerts) ∧
        ((∃ other, db.username other = some username) → signupFailed ∈ alerts))

variable {db : Database} {username : String} {names : List String}

theorem mem_usernames (h : usernames db = some names) :
    username ∈ names ↔ ∃ other, db.username other = some username := by
  constructor
  · intro hmem
    obtain ⟨⟨other, record⟩, hentry, hname⟩ := Traverse.exists_of_mem h hmem
    exact ⟨other, Database.username_eq_some.mpr
      ⟨record, mem_entries_iff.mp hentry, castString_eq_some.mp hname⟩⟩
  · rintro ⟨other, hname⟩
    obtain ⟨record, hrecord, hstored⟩ := Database.username_eq_some.mp hname
    obtain ⟨name, hmem, hcast⟩ := Traverse.mem_of_mem h (mem_entries_iff.mpr hrecord)
    obtain rfl := Option.some.inj ((castString_eq_some.mpr hstored).symm.trans hcast)
    exact hmem

/-- The press with the names of the table, of which some may be the new one. -/
theorem signUpAlone_eq (key : Key) (password : String) {taken : List String}
    (hnames : usernames db = some names) (htaken : names.filter (· = username) = taken) :
    signUpAlone db key username password = some
      ((if username = "" then [missingUsername] else []) ++
        (if password = "" then [missingPassword] else []) ++
        taken.map (fun _ => signupFailed) ++ (if taken = [] then [success] else []),
        if taken = [] then { db with users := db.users.insert key (userRecord username password) }
        else db) := by
  subst htaken
  have hpress : signUpButton db username password = some _ :=
    Option.bind_eq_some_iff.mpr ⟨names, hnames, rfl⟩
  rw [signUpAlone, hpress, Option.map_some]
  by_cases hnone : names.filter (· = username) = []
  · rw [if_pos hnone, if_pos hnone, if_pos hnone]
    rfl
  · rw [if_neg hnone, if_neg hnone, if_neg hnone]
    rfl

/-- A name that is taken is refused, whatever the texts. -/
theorem signUpAlone_taken (key : Key) (password : String) (hnames : usernames db = some names)
    (htaken : username ∈ names) :
    ∃ alerts, signUpAlone db key username password = some (alerts, db) ∧ success ∉ alerts ∧
      (username = "" → missingUsername ∈ alerts) ∧
      (password = "" → missingPassword ∈ alerts) ∧ signupFailed ∈ alerts := by
  cases hfilter : names.filter (· = username) with
  | nil => exact absurd (List.filter_eq_nil_iff.mp hfilter username htaken) (by simp)
  | cons name rest =>
      have hother : success ≠ missingUsername ∧ success ≠ missingPassword ∧
          success ≠ signupFailed := by decide
      refine ⟨_, signUpAlone_eq key password hnames hfilter, ?_, ?_, ?_, ?_⟩
      · by_cases husername : username = "" <;> by_cases hpassword : password = "" <;>
          simp [husername, hpassword, hother]
      · intro hempty
        simp [hempty]
      · intro hempty
        simp [hempty]
      · simp

/-- Any other name is added, whatever the texts. -/
theorem signUpAlone_free (key : Key) (password : String) (hnames : usernames db = some names)
    (hfree : username ∉ names) :
    signUpAlone db key username password = some
      ((if username = "" then [missingUsername] else []) ++
        (if password = "" then [missingPassword] else []) ++ [success],
        { db with users := db.users.insert key (userRecord username password) }) := by
  have hfilter : names.filter (· = username) = [] := by
    refine List.filter_eq_nil_iff.mpr ?_
    rintro name hmem heq
    exact hfree (of_decide_eq_true heq ▸ hmem)
  simpa using signUpAlone_eq key password hnames hfilter

end SignUpViewController

end Auctioneer
