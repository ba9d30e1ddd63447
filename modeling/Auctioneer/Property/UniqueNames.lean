import Auctioneer.Proof.Records

/-!
User names. `signUpButton` compares the name with a snapshot of Users and adds
the record later, so two sign-ups can both find a name free.
-/

namespace Auctioneer

/-- The user that a write adds. -/
def Issue.addsUser (issue : Issue) : Option (Key × String) :=
  match issue.write with
  | .setUser key record => (castString (record .Username)).map (key, ·)
  | _ => none

theorem Issue.addsUser_eq_some {issue : Issue} {key : Key} {name : String} :
    issue.addsUser = some (key, name) ↔
      ∃ record, issue.write = .setUser key record ∧ record .Username = some (.string name) := by
  obtain ⟨write, call⟩ := issue
  cases write <;> simp [addsUser, Option.map_eq_some_iff, and_comm]

/-- No two records of Users have the same name. -/
def Database.UniqueUsernames (db : Database) : Prop :=
  ∀ key key' name, db.username key = some name → db.username key' = some name → key = key'

namespace System

/-- The name that a sign-up callback is about to add. -/
def addedName (s : System) : Label → Option String
  | .act _ (.signUp snapshot username password) => do
      let users ← s.states[snapshot]?
      let outcome ← SignUpViewController.signUpButton users username password
      if outcome.record.isSome then some username else none
  | _ => none

/-- No record of Users has the name, and none that is on its way. -/
def NameFree (s : System) (name : String) : Prop :=
  (∀ pairs ∈ s.db.users.entries, castString (pairs.2 .Username) ≠ some name) ∧
    ∀ sent ∈ s.wire, sent.2.addsUser.map (·.2) ≠ some name

instance (s : System) (name : String) : Decidable (s.NameFree name) :=
  inferInstanceAs (Decidable (_ ∧ _))

/-- A sign-up adds a name only when it is still free. -/
def AddsFreeName (s : System) (l : Label) : Prop := ∀ name ∈ s.addedName l, s.NameFree name

instance (s : System) (l : Label) : Decidable (s.AddsFreeName l) :=
  inferInstanceAs (Decidable (∀ name ∈ s.addedName l, s.NameFree name))

variable {world : World} {now : Date} {s : System}

theorem NameFree.username_ne {name : String} (h : s.NameFree name) (key : Key) :
    s.db.username key ≠ some name := by
  intro hname
  obtain ⟨record, hrecord, hstored⟩ := Database.username_eq_some.mp hname
  exact h.1 ⟨key, record⟩ (mem_entries_iff.mpr hrecord) (castString_eq_some.mpr hstored)

/-- The names of a database after a write: the old ones, or the one it adds. -/
theorem username_after {dbs : List Database} {issue : Issue} (hbacked : issue.Backed world dbs)
    {db : Database} {key : Key} {name : String}
    (hname : (issue.apply db).username key = some name) :
    db.username key = some name ∨ issue.addsUser = some (key, name) := by
  obtain ⟨record, hrecord, hstored⟩ := Database.username_eq_some.mp hname
  rw [Database.username_eq_some]
  rcases issue.users_after db key with hsame | ⟨added, hwrite, hnew⟩ |
    ⟨field, value, hwrite, hnew⟩
  · exact .inl ⟨record, hsame.symm.trans hrecord, hstored⟩
  · obtain rfl := Option.some.inj (hnew.symm.trans hrecord)
    exact .inr (by simp [Issue.addsUser, hwrite, castString_eq_some.mpr hstored])
  · obtain ⟨_, hfield, _⟩ := hbacked.of_updateUser hwrite
    obtain rfl := Option.some.inj (hnew.symm.trans hrecord)
    rw [Function.update_of_ne hfield.symm] at hstored
    cases hlookup : db.users.lookup key with
    | none => simp [hlookup] at hstored
    | some old => exact .inl ⟨old, rfl, by simpa [hlookup] using hstored⟩

/-- An event that adds a user adds one of the name that the label says. -/
theorem addsUser_of_act {c : ClientId} {action : Action} {client : Client}
    {issues : List Issue}
    (hact : (s.client c).act (s.env world c (action.ends s.now)) action =
      some (.done client issues)) :
    (∀ issue ∈ issues, issue.addsUser = none) ∨
      ∃ issue key name, issues = [issue] ∧ issue.addsUser = some (key, name) ∧
        s.addedName (.act c action) = some name := by
  cases Client.act_issues hact with
  | silent => exact .inl (by simp)
  | signUp snapshot username password users husers hfree =>
      right
      refine ⟨_, _, username, rfl, rfl, ?_⟩
      have hrunning := Client.act_eq_done hact
      simp only [Client.act, hrunning, Bool.false_eq_true, if_false, Client.signUp,
        Option.bind_eq_bind, Option.bind_eq_some_iff, Option.some.injEq,
        Reaction.orCrash_eq_done, Reaction.done.injEq] at hact
      obtain ⟨users, husers, outcome, houtcome, _, hissues⟩ := hact
      have hadded : outcome.record.isSome := by
        cases hrecord : outcome.record with
        | none => simp [hrecord] at hissues
        | some _ => rfl
      simp only [addedName, Option.bind_eq_bind, Option.bind_eq_some_iff]
      exact ⟨users, husers, outcome, houtcome, by simp [hadded]⟩
  | bid text item userName amount =>
      left
      intro issue hissue
      rcases HomeFeedDetailsViewController.mem_bidIssues.mp hissue with rfl | rfl <;> rfl
  | delete => exact .inl (by simp [Issue.addsUser])
  | auction => exact .inl (by simp [Issue.addsUser])
  | task _ _ pending users writes _ _ hwrites =>
      left
      intro issue hissue
      obtain ⟨write, hwrite, rfl⟩ := List.mem_map.mp hissue
      obtain ⟨_, _, _, _, rfl, _⟩ := Client.mem_taskWrites hwrites hwrite
      rfl

/-- When every sign-up adds a free name, the names in Users and on the wire
stay distinct. -/
theorem names_distinct (h : ReachesUnder world AddsFreeName now s) :
    Outbox.Distinct Database.username Issue.addsUser s.net := by
  refine net_invariant (Outbox.Distinct Database.username Issue.addsUser)
    (.of_start fun key => Database.username_empty) ?_ ?_ h
  · intro s sender net hprior _ hnet hdistinct
    refine hdistinct.deliver hnet ?_
    intro issue key name hwire hname
    have hissued := (honest hprior).mem_issued hwire
    exact username_after (issue_backed hprior issue hissued) hname
  · intro s c action client issues _ hok hact hdistinct
    rcases addsUser_of_act hact with hnone | ⟨issue, key, name, rfl, hadds, hadded⟩
    · refine hdistinct.issue ?_ ?_ ?_
      · intro issue hissue key name hadds
        simp [hnone issue hissue] at hadds
      · intro sent _ issue hissue _ _ key name _ hadds
        simp [hnone issue hissue] at hadds
      · refine List.pairwise_of_forall_mem_list ?_
        intro earlier hearlier later _ key name _ _ hadds
        simp [hnone earlier hearlier] at hadds
    · have hfree : s.NameFree name := hok name hadded
      refine hdistinct.issue ?_ ?_ (List.pairwise_singleton _ _)
      · intro added hissue key' name' hadds' other
        obtain rfl := List.mem_singleton.mp hissue
        rw [hadds] at hadds'
        obtain ⟨rfl, rfl⟩ := Prod.mk.inj (Option.some.inj hadds')
        exact hfree.username_ne other
      · rintro sent hsent added hissue key₁ name₁ key₂ name₂ hsent' hadds' rfl
        obtain rfl := List.mem_singleton.mp hissue
        rw [hadds] at hadds'
        obtain ⟨rfl, rfl⟩ := Prod.mk.inj (Option.some.inj hadds')
        have htaken : sent.2.addsUser.map (·.2) = some name := by simp [hsent']
        exact hfree.2 sent hsent htaken

/-- While every sign-up adds a free name, no two records of Users have the same
name. -/
theorem usernames_unique (h : ReachesUnder world AddsFreeName now s) :
    s.db.UniqueUsernames :=
  (names_distinct h).stored

/-- Three clients sign up under two names: the third reads Users after the
first sign-up has arrived, and is refused. -/
def signUpsInTurn : List Label :=
  [.act 0 (.signUp 0 "sue" "p"), .act 1 (.signUp 0 "amy" "q"), .deliver 1, .deliver 0,
    .act 2 (.signUp 2 "sue" "r")]

theorem usernames_unique_in_turn :
    ∃ s, ReachesUnder (World.sharing (TimeZone.fixed 480)) AddsFreeName 0 s ∧
      (s.db.username 0 = some "sue" ∧ s.db.username 1 = some "amy") ∧
      s.db.UniqueUsernames := by
  obtain ⟨s, hreach, hnames⟩ : ∃ s, ReachesUnder (World.sharing (TimeZone.fixed 480))
      AddsFreeName 0 s ∧ s.db.username 0 = some "sue" ∧ s.db.username 1 = some "amy" :=
    Machine.exists_reaches signUpsInTurn (by decide +kernel) (by decide +kernel)
  exact ⟨s, hreach, hnames, usernames_unique hreach⟩

/-- Two clients sign up under one name, each with the snapshot before both. -/
def doubleSignUp : List Label :=
  [.act 0 (.signUp 0 "sue" "p"), .act 1 (.signUp 0 "sue" "q"), .deliver 0, .deliver 1]

theorem usernames_not_unique :
    ¬ ∀ (world : World) (now : Date) (s : System), Reachable world now s →
      s.db.UniqueUsernames := by
  intro hunique
  obtain ⟨s, hreach, hfirst, hsecond⟩ : ∃ s, Reachable (World.sharing (TimeZone.fixed 480)) 0 s ∧
      s.db.username 0 = some "sue" ∧ s.db.username 1 = some "sue" :=
    Machine.exists_reachable doubleSignUp (by decide +kernel)
  exact absurd (hunique _ _ s hreach 0 1 "sue" hfirst hsecond) (by decide)

end System

end Auctioneer
