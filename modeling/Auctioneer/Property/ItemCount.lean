import Auctioneer.Library.Ledger
import Auctioneer.Property.UniqueNames
import Auctioneer.Property.UserRecords

/-!
The `ItemsAuctioned` of an account. `Submit_Auction` creates the product, reads
Users once and writes back the count of that snapshot plus one, so two devices
that read the same count lose one of their auctions.
-/

namespace Auctioneer

/-- The value that a write gives to the `ItemsAuctioned` of a user. -/
def Issue.countOf (key : Key) (issue : Issue) : Option Value :=
  match issue.write with
  | .updateUser updated .ItemsAuctioned value => if updated = key then some value else none
  | _ => none

theorem Issue.countOf_eq_some {issue : Issue} {key : Key} {value : Value} :
    issue.countOf key = some value ↔ issue.write = .updateUser key .ItemsAuctioned value := by
  unfold countOf
  split
  · next updated new hwrite => simp [hwrite]
  · next hother =>
    simp only [reduceCtorEq, false_iff]
    exact hother key value

theorem Issue.countOf_updateUser {key updated : Key} {field : UserField} {value : Value}
    {call : Call} (hfield : field ≠ .ItemsAuctioned) :
    Issue.countOf key ⟨.updateUser updated field value, call⟩ = none := by
  cases field <;> first | rfl | exact absurd rfl hfield

namespace Client

/-- The counts of an account that a client has begun and not completed. -/
def counting (client : Client) (name : String) : Nat :=
  client.tasks.count ⟨.countAuction, some name⟩

/-- What an event does to the auctions of an account and their counts: it creates
a product and begins a count, completes a count, or does neither. -/
inductive CountStep (env : Env) (client client' : Client) : Action → List Issue → Prop where
  | other (action : Action) (issues : List Issue) :
      (∀ name, client'.counting name = client.counting name) →
      (∀ issue ∈ issues, ∀ author, issue.call ≠ .submitAuction author) →
      (∀ issue ∈ issues, ∀ key, issue.countOf key = none) →
      CountStep env client client' action issues
  | auction (later : Date) (record : ProductRecord) :
      client'.tasks = client.tasks ++ [⟨.countAuction, client.signedInUserName⟩] →
      CountStep env client client' (.submitAuction later)
        [⟨.setProduct env.freshKey record, .submitAuction client.signedInUserName⟩]
  | count (task snapshot : Nat) (author : Option String) (users : Database)
      (writes : List Write) :
      client.tasks[task]? = some ⟨.countAuction, author⟩ →
      env.snapshots[snapshot]? = some users →
      OpenNewAuctionViewController.countAuction users client.signedInUserName = some writes →
      client'.tasks = client.tasks.eraseIdx task →
      CountStep env client client' (.usersEvent task snapshot)
        (writes.map fun write => ⟨write, .userTask author⟩)

variable {env : Env} {client client' : Client} {action : Action} {issues : List Issue}

theorem count_eraseIdx {tasks : List UserTask} {task : Nat} {pending : UserTask}
    (h : tasks[task]? = some pending) (other : UserTask) :
    tasks.count other =
      (tasks.eraseIdx task).count other + if pending = other then 1 else 0 := by
  obtain ⟨hlt, rfl⟩ := List.getElem?_eq_some_iff.mp h
  rw [← (List.getElem_cons_eraseIdx_perm hlt).count_eq other, List.count_cons]
  simp

theorem count_append_of_ne (tasks : List UserTask) {added other : UserTask}
    (hne : added.kind ≠ other.kind) : (tasks ++ [added]).count other = tasks.count other := by
  have hdiffer : added ≠ other := fun heq => hne (heq ▸ rfl)
  rw [List.count_append, List.count_singleton, if_neg (by simpa using hdiffer), add_zero]

/-- Only an accepted auction and the completion of a count change how many
counts are outstanding. -/
theorem act_counting (h : client.act env action = some (.done client' issues))
    (hauction : ∀ later, action ≠ .submitAuction later)
    (husers : ∀ task snapshot, action ≠ .usersEvent task snapshot) (name : String) :
    client'.counting name = client.counting name := by
  have hrunning := act_eq_done h
  simp only [act, hrunning, Bool.false_eq_true, if_false] at h
  cases action with
  | submitAuction later => exact absurd rfl (hauction later)
  | usersEvent task snapshot => exact absurd rfl (husers task snapshot)
  | profileUploadEnded task url =>
      simp only [profileUploadEnded, Option.bind_eq_bind, Option.bind_eq_some_iff,
        Option.ite_none_right_eq_some, Option.some.injEq, Reaction.done.injEq] at h
      obtain ⟨pending, hpending, hkind, rfl, _⟩ := h
      have hdiffer : pending ≠ ⟨.countAuction, some name⟩ := by
        rintro rfl
        cases hkind
      cases url with
      | none =>
          have herase := count_eraseIdx hpending ⟨.countAuction, some name⟩
          rw [if_neg hdiffer, add_zero] at herase
          exact herase.symm
      | some url =>
          obtain ⟨hlt, rfl⟩ := List.getElem?_eq_some_iff.mp hpending
          simp [counting, List.count_set hlt, hdiffer]
  | profileImagePicked =>
      simp only [profileImagePicked, Option.bind_eq_bind, Option.bind_eq_some_iff,
        Option.ite_none_right_eq_some, Option.some.injEq, Reaction.done.injEq] at h
      obtain ⟨bar, _, _, rfl, _⟩ := h
      exact count_append_of_ne client.tasks (by simp)
  | selectTab tab =>
      simp only [selectTab, Option.bind_eq_bind, Option.bind_eq_some_iff, Option.some.injEq,
        Reaction.orCrash_eq_done, Reaction.done.injEq] at h
      obtain ⟨bar, _, shown, hshown, rfl, _⟩ := h
      cases tab with
      | auctionWon =>
          obtain rfl := Option.some.inj hshown
          simp only [loadAuctionWon]
          split
          · rfl
          · exact count_append_of_ne client.tasks (by simp)
      | yourListing =>
          obtain rfl := Option.some.inj hshown
          simp only [loadYourListing]
          split <;> rfl
      | profile =>
          obtain ⟨_, _, rfl⟩ := loadProfile_eq_some hshown
          rfl
      | _ =>
          obtain rfl := Option.some.inj hshown
          rfl
  | login =>
      rcases (login_eq_done h).2 with rfl | ⟨_, _, _, _, rfl⟩ <;> rfl
  | signUp => rw [(signUp_issues h).1]
  | bidSubmit => rw [(bidSubmit_issues h).1]
  | deleteListing =>
      obtain ⟨_, _, rfl, _⟩ := deleteListing_issues env h
      rfl
  | _ =>
      simp only [signOut, selectRow, popDetails, pullDownRefresh, productsEvent, detailsEvent,
        priceRead, onForm, pushDetails, showItems, profileUsersEvent, profileProductsEvent,
        Option.bind_eq_bind, Option.bind_eq_some_iff, Option.ite_none_left_eq_some,
        Option.ite_none_right_eq_some, Option.some.injEq, Reaction.orCrash_eq_done,
        Reaction.done.injEq] at h
      have htasks : client'.tasks = client.tasks := by grind
      simp only [counting, htasks]

/-- A Users callback of another kind does not touch the counts. -/
theorem usersEvent_other {task snapshot : Nat} {pending : UserTask} {users : Database}
    {writes : List Write} (hkind : pending.kind ≠ .countAuction)
    (hpending : client.tasks[task]? = some pending)
    (hwrites : client.taskWrites pending.kind users = some (some writes))
    (htasks : client'.tasks = client.tasks.eraseIdx task) :
    CountStep env client client' (.usersEvent task snapshot)
      (writes.map fun write => ⟨write, .userTask pending.author⟩) := by
  refine .other _ _ ?_ ?_ ?_
  · intro name
    have herase := count_eraseIdx hpending ⟨.countAuction, some name⟩
    have hdiffer : pending ≠ ⟨.countAuction, some name⟩ := by
      rintro rfl
      exact hkind rfl
    rw [if_neg hdiffer, add_zero] at herase
    rw [counting, htasks]
    exact herase.symm
  · intro issue hissue author
    obtain ⟨write, _, rfl⟩ := List.mem_map.mp hissue
    simp
  · intro issue hissue key
    obtain ⟨write, hwrite, rfl⟩ := List.mem_map.mp hissue
    obtain ⟨_, _, _, _, _, rfl, _, _, _, hassigns⟩ := taskWrites_assigns hwrites hwrite
    refine Issue.countOf_updateUser ?_
    generalize pending.kind = kind at *
    cases hassigns with
    | countAuction => exact absurd rfl hkind
    | countWon => simp
    | setProfileImage => simp

/-- What no other event issues. -/
theorem Issues.not_counts (h : Issues env client action issues)
    (hauction : ∀ later, action ≠ .submitAuction later)
    (husers : ∀ task snapshot, action ≠ .usersEvent task snapshot) :
    ∀ issue ∈ issues, (∀ author, issue.call ≠ .submitAuction author) ∧
      ∀ key, issue.countOf key = none := by
  intro issue hissue
  cases h with
  | silent => cases hissue
  | bid =>
      rcases HomeFeedDetailsViewController.mem_bidIssues.mp hissue with rfl | rfl <;>
        exact ⟨fun author => by
          simp [HomeFeedDetailsViewController.priceIssue,
            HomeFeedDetailsViewController.bidderIssue], fun key => rfl⟩
  | auction later => exact absurd rfl (hauction later)
  | task task snapshot => exact absurd rfl (husers task snapshot)
  | _ =>
      obtain rfl := List.mem_singleton.mp hissue
      exact ⟨fun author => by simp, fun key => rfl⟩

theorem act_counts (h : client.act env action = some (.done client' issues)) :
    CountStep env client client' action issues := by
  cases action with
  | submitAuction later =>
      have hrunning := act_eq_done h
      simp only [act, hrunning, Bool.false_eq_true, if_false] at h
      rcases submitAuction_eq_done h with ⟨rfl, rfl⟩ | ⟨bar, record, _, _, rfl, rfl⟩
      · exact .other _ _ (fun _ => rfl) (by simp) (by simp)
      · exact .auction later record rfl
  | usersEvent task snapshot =>
      obtain ⟨⟨kind, author⟩, users, writes, hpending, husers, hwrites, rfl, rfl⟩ :=
        usersEvent_eq_done (act_usersEvent h)
      by_cases hkind : kind = .countAuction
      · subst hkind
        exact .count task snapshot author users writes hpending husers
          (Option.some.inj hwrites) rfl
      · exact usersEvent_other hkind hpending hwrites rfl
  | _ =>
      have hnone := (act_issues h).not_counts (by simp) (by simp)
      exact .other _ _ (act_counting h (by simp) (by simp)) (fun issue hissue =>
        (hnone issue hissue).1) fun issue hissue => (hnone issue hissue).2

end Client

namespace OpenNewAuctionViewController

variable {users : Database} {signedIn : Option String} {writes : List Write} {key : Key}

/-- A count updates one `ItemsAuctioned` of each record of the signed-in user. -/
theorem countOf_countAuction {name : String} {record : UserRecord} {counted : ℕ}
    (h : countAuction users (some name) = some writes)
    (hrecord : users.users.lookup key = some record)
    (hname : record .Username = some (.string name))
    (hcount : record .ItemsAuctioned = some (.number counted)) (call : Call) :
    (writes.map fun write => (⟨write, call⟩ : Issue)).filterMap (Issue.countOf key) =
      [.number (counted + 1 : ℕ)] := by
  simp only [countAuction, ownUpdates, Option.map_eq_some_iff] at h
  obtain ⟨lists, hlists, rfl⟩ := h
  rw [List.filterMap_map]
  refine Traverse.filterMap_flatten_eq hlists users.users.nodupKeys.nodup
    (mem_entries_iff.mpr hrecord) ?_ ?_
  · intro ys hys
    simp only [castString_eq_some.mpr hname, hcount, castInt_natCast, Option.bind_eq_bind,
      Option.bind_some, if_true, Option.some.injEq] at hys
    subst hys
    simp [Issue.countOf]
  · rintro ⟨other, record'⟩ hentry hne ys hys
    have hdiffer : other ≠ key := by
      rintro rfl
      have hsame := (mem_entries_iff.mp hentry).symm.trans hrecord
      exact hne (by rw [Option.some.inj hsame])
    simp only [Option.bind_eq_bind, Option.bind_eq_some_iff] at hys
    obtain ⟨name', _, hys⟩ := hys
    split at hys
    · obtain ⟨_, _, hys⟩ := Option.bind_eq_some_iff.mp hys
      obtain rfl := Option.some.inj hys
      simp [Issue.countOf, hdiffer]
    · obtain rfl := Option.some.inj hys
      rfl

/-- And none of another user. -/
theorem countOf_countAuction_ne (h : countAuction users signedIn = some writes)
    (hname : ∀ name, signedIn = some name → users.username key ≠ some name) (call : Call) :
    ∀ issue ∈ writes.map fun write => (⟨write, call⟩ : Issue), issue.countOf key = none := by
  intro issue hissue
  obtain ⟨write, hwrite, rfl⟩ := List.mem_map.mp hissue
  obtain ⟨updated, _, name, record, rfl, hsigned, hlookup, hstored, _⟩ := mem_ownUpdates h hwrite
  have hdiffer : updated ≠ key := by
    rintro rfl
    exact hname name hsigned (Database.username_eq_some.mpr ⟨record, hlookup, hstored⟩)
  simp [Issue.countOf, hdiffer]

end OpenNewAuctionViewController

namespace System

/-- The products that an account has created. -/
def auctionsBy (s : System) (name : String) : Nat :=
  s.net.issued.countP fun issue => issue.call = .submitAuction (some name)

/-- Nothing is in flight: no write is on its way and no running app waits for
the Users read of a count. -/
structure Quiet (s : System) : Prop where
  wire : s.wire = []
  counts : ∀ c, (s.client c).crashed = false → ∀ name, (s.client c).counting name = 0

/-- Every account has its products counted. -/
def ItemsCounted (s : System) : Prop :=
  ∀ key name, s.db.username key = some name →
    s.db.userField key .ItemsAuctioned = some (.number (s.auctionsBy name))

/-- The Users read of a count: who began it, who is signed in, and what it
reads. -/
structure CountRead where
  author : Option String
  signedIn : Option String
  users : Database

def countRead (s : System) : Label → Option CountRead
  | .act c (.usersEvent task snapshot) => do
      let pending ← (s.client c).tasks[task]?
      let users ← s.states[snapshot]?
      if pending.kind = .countAuction then
        some ⟨pending.author, (s.client c).signedInUserName, users⟩
      else none
  | _ => none

/-- A count is read for the user signed in, and shows the count of every record
of that user as it is, with no update of it still on its way. -/
def ReadsLatest (s : System) (l : Label) : Prop :=
  ∀ read ∈ s.countRead l, read.author = read.signedIn ∧
    ∀ entry ∈ s.db.users.entries, castString (entry.2 .Username) = read.author →
      read.users.userField entry.1 .ItemsAuctioned = entry.2 .ItemsAuctioned ∧
      ∀ sent ∈ s.wire, sent.2.countOf entry.1 = none

instance (s : System) (l : Label) : Decidable (s.ReadsLatest l) :=
  inferInstanceAs (Decidable (∀ read ∈ s.countRead l, _))

/-- The client that an event crashes. -/
def crashes (world : World) (s : System) : Label → Option Client
  | .act c action =>
      match (s.client c).act (s.env world c (action.ends s.now)) action with
      | some .crash => some (s.client c)
      | _ => none
  | _ => none

/-- No app crashes while it waits for a count. -/
def CrashesIdle (world : World) (s : System) (l : Label) : Prop :=
  ∀ client ∈ s.crashes world l, ∀ task ∈ client.tasks, task.kind ≠ .countAuction

instance (world : World) (s : System) (l : Label) : Decidable (s.CrashesIdle world l) :=
  inferInstanceAs (Decidable (∀ client ∈ s.crashes world l, _))

/-- The steps that lose no count. -/
def CountsApart (world : World) (s : System) (l : Label) : Prop :=
  s.AddsFreeName l ∧ s.ReadsLatest l ∧ s.CrashesIdle world l

instance (world : World) (s : System) (l : Label) : Decidable (s.CountsApart world l) :=
  inferInstanceAs (Decidable (_ ∧ _))

variable {world : World} {ok : System → Label → Prop} {now : Date} {s s' : System}

/-- Whoever began a count has been a registered user. -/
theorem counting_registered (h : ReachesUnder world ok now s) (c : ClientId) :
    ∀ name, (s.client c).counting name ≠ 0 → Registered s.states name := by
  refine client_invariant
    (fun dbs _ client => ∀ name, client.counting name ≠ 0 → Registered dbs name) ?_ ?_ ?_ ?_ h c
  · intro _ _ name hcounting
    exact absurd rfl hcounting
  · intro _ _ _ _ hsub hinv name hcounting
    exact (hinv name hcounting).mono hsub
  · intro _ _ _ hinv
    exact hinv
  · intro s c action client issues hprior _ hinv hact name hcounting
    cases Client.act_counts hact with
    | other _ _ hsame => exact hinv name (hsame name ▸ hcounting)
    | auction later record htasks =>
        by_cases hsigned : (s.client c).signedInUserName = some name
        · exact session_registered hprior c name hsigned
        · refine hinv name ?_
          have hdiffer : (⟨.countAuction, (s.client c).signedInUserName⟩ : UserTask) ≠
              ⟨.countAuction, some name⟩ := by
            simpa using hsigned
          rwa [Client.counting, htasks, List.count_append, List.count_singleton,
            if_neg (by simpa using hdiffer), add_zero] at hcounting
    | count task snapshot author users writes hpending _ _ htasks =>
        refine hinv name ?_
        have herase := Client.count_eraseIdx hpending ⟨.countAuction, some name⟩
        rw [Client.counting, htasks] at hcounting
        rw [Client.counting]
        omega

/-- An update stores the count that it gives. -/
theorem itemsAuctioned_countOf (key : Key) (issue : Issue) (db : Database) (value : Value)
    (h : issue.countOf key = some value) :
    (issue.apply db).userField key .ItemsAuctioned = some value := by
  have hwrite := Issue.countOf_eq_some.mp h
  simp [Database.userField, Issue.apply, hwrite, Write.apply, Table.lookup_setField]

/-- Every other write keeps it. -/
theorem itemsAuctioned_kept (h : ReachesUnder world ok now s) {sender : ClientId} {issue : Issue}
    (hwire : (sender, issue) ∈ s.wire) {key : Key} {value : Value}
    (hnone : issue.countOf key = none)
    (hvalue : s.db.userField key .ItemsAuctioned = some value) :
    (issue.apply s.db).userField key .ItemsAuctioned = some value := by
  obtain ⟨record, hrecord, hcount⟩ := Database.userField_eq_some.mp hvalue
  rw [Database.userField_eq_some]
  rcases issue.users_after s.db key with hsame | ⟨_, hwrite, _⟩ | ⟨field, new, hwrite, hnew⟩
  · exact ⟨record, hsame.trans hrecord, hcount⟩
  · have hheld : s.db.Holds key := .inr (by simp [hrecord])
    exact absurd hheld ((keyed h).pending _ hwire key (by simp [Issue.creates, hwrite]) _
      (Outbox.Net.db_mem_states _))
  · have hfield : .ItemsAuctioned ≠ field := by
      rintro rfl
      rw [Issue.countOf_eq_some.mpr hwrite] at hnone
      cases hnone
    rw [hrecord, Option.getD_some] at hnew
    exact ⟨_, hnew, by rwa [Function.update_of_ne hfield]⟩

/-- The products of an account are those counted and those whose count is
outstanding, and its `ItemsAuctioned` becomes the number of those counted. -/
def Counted (s : System) (key : Key) (name : String) : Prop :=
  ∃ counted pending : ℕ, s.auctionsBy name = counted + pending ∧
    Ledger.Tally (fun c => (s.client c).counting name) pending ∧
    Outbox.Becomes (fun db : Database => db.userField key .ItemsAuctioned) (Issue.countOf key)
      (.number counted) s.net

theorem Counted.deliver (h : ReachesUnder world ok now s) {key : Key} {name : String}
    (hcounted : s.Counted key name) {sender : ClientId}
    {net : Outbox.Net ClientId Issue Database}
    (hnet : s.net.deliver sender Issue.apply = some net) :
    Counted { s with net } key name := by
  obtain ⟨counted, pending, hsum, htally, hbecomes⟩ := hcounted
  refine ⟨counted, pending, ?_, htally, ?_⟩
  · rw [auctionsBy, Outbox.Net.deliver_issued hnet]
    exact hsum
  · exact hbecomes.deliver hnet (fun issue db value => itemsAuctioned_countOf key issue db value)
      fun issue hwire hnone hvalue => itemsAuctioned_kept h hwire hnone hvalue

/-- A user whose count is updated has been there. -/
theorem held_of_countOf (h : ReachesUnder world ok now s) {sent : ClientId × Issue}
    (hwire : sent ∈ s.wire) {key : Key} {value : Value} (hcount : sent.2.countOf key = some value) :
    ∃ db ∈ s.states, db.Holds key := by
  have hbacked := issue_backed h sent.2 ((honest h).mem_issued hwire)
  obtain ⟨⟨db, hdb, name, hname⟩, _⟩ := hbacked.of_updateUser (Issue.countOf_eq_some.mp hcount)
  exact ⟨db, hdb, Database.holds_of_username hname⟩

theorem registered_of_auction {dbs : List Database} {issue : Issue}
    (h : issue.Backed world dbs) {name : String} (hcall : issue.call = .submitAuction (some name)) :
    Registered dbs name := by
  cases h with
  | auction _ _ _ _ opener _ hopener =>
      obtain rfl : opener = name := by simpa using hcall
      exact hopener
  | bid _ _ _ _ _ _ _ _ hbid =>
      rcases HomeFeedDetailsViewController.mem_bidIssues.mp hbid with rfl | rfl <;> cases hcall
  | _ => cases hcall

/-- A new account has no products and no counts. -/
theorem counted_of_signUp (h : ReachesUnder world AddsFreeName now s) {key : Key} {name : String}
    {sender : ClientId} {net : Outbox.Net ClientId Issue Database}
    (hnet : s.net.deliver sender Issue.apply = some net) {issue : Issue}
    (hwire : (sender, issue) ∈ s.wire) (hdb : net.db = issue.apply s.db)
    (hadds : issue.addsUser = some (key, name)) : Counted { s with net } key name := by
  have hfree : ¬ Registered s.states name := by
    intro hregistered
    obtain ⟨other, hother⟩ := registered_now h hregistered
    exact (names_distinct h).pending _ hwire key name hadds other hother
  obtain ⟨record, hwrite, _⟩ := Issue.addsUser_eq_some.mp hadds
  refine ⟨0, 0, ?_, ?_, .inl ⟨?_, ?_⟩⟩
  · rw [auctionsBy, Outbox.Net.deliver_issued hnet, List.countP_eq_zero]
    intro auction hauction hcall
    exact hfree (registered_of_auction (issue_backed h auction hauction) (by simpa using hcall))
  · have hnone : (fun c => (s.client c).counting name) = fun _ => 0 := by
      funext c
      by_contra hcounting
      exact hfree (counting_registered h c name hcounting)
    rw [show (fun c => (({ s with net } : System).client c).counting name) = _ from hnone]
    exact .zero
  · have hbacked := issue_backed h issue ((honest h).mem_issued hwire)
    obtain ⟨username, password, rfl⟩ := hbacked.of_setUser hwrite
    simp [hdb, Database.userField, Issue.apply, hwrite, Write.apply,
      SignUpViewController.userRecord]
  · intro sent hsent
    have hold := (Outbox.Net.deliver_wire_sublist hnet).subset hsent
    cases hcount : sent.2.countOf key with
    | none => rfl
    | some value =>
        -- the key of a sign-up on its way is in no earlier state
        obtain ⟨source, hsource, hholds⟩ := held_of_countOf h hold hcount
        exact absurd hholds ((keyed h).pending _ hwire key (by simp [Issue.creates, hwrite]) _
          hsource)

theorem auctionsBy_react (c : ClientId) (ends : Date) (client : Client) (issues : List Issue)
    (name : String) :
    (s.react c ends (.done client issues)).auctionsBy name = s.auctionsBy name +
      issues.countP fun issue => issue.call = .submitAuction (some name) := by
  rw [auctionsBy, react_done_net, Outbox.Net.issue_issued, List.countP_append, auctionsBy]

theorem tally_react {name : String} {pending : ℕ}
    (htally : Ledger.Tally (fun c => (s.client c).counting name) pending) (c : ClientId)
    (ends : Date) (client : Client) (issues : List Issue) :
    ∃ pending', Ledger.Tally
        (fun o => ((s.react c ends (.done client issues)).client o).counting name) pending' ∧
      pending' + (s.client c).counting name = pending + client.counting name := by
  have hother : ∀ o ≠ c, ((s.react c ends (.done client issues)).client o).counting name =
      (s.client o).counting name := by
    intro o hne
    rw [react_client_ne hne]
  obtain ⟨pending', htally', htotal⟩ := htally.update c hother
  exact ⟨pending', htally', by simpa using htotal⟩

/-- A count that is read as it should be is one higher for the account that
began it. -/
theorem countOf_read (h : ReachesUnder world ok now s) {key : Key} {name : String}
    (hname : s.db.username key = some name) {counted : ℕ}
    (hbecomes : Outbox.Becomes (fun db : Database => db.userField key .ItemsAuctioned)
      (Issue.countOf key) (.number counted) s.net)
    {users : Database} (husers : users ∈ s.states) {writes : List Write} {call : Call}
    (hwrites : OpenNewAuctionViewController.countAuction users (some name) = some writes)
    (hlatest : ∀ entry ∈ s.db.users.entries, castString (entry.2 .Username) = some name →
      users.userField entry.1 .ItemsAuctioned = entry.2 .ItemsAuctioned ∧
      ∀ sent ∈ s.wire, sent.2.countOf entry.1 = none) (c : ClientId) :
    Outbox.Becomes (fun db : Database => db.userField key .ItemsAuctioned) (Issue.countOf key)
      (.number (counted + 1 : ℕ)) (s.net.issue c (writes.map fun write => ⟨write, call⟩)) := by
  obtain ⟨record, hrecord, hstored⟩ := Database.username_eq_some.mp hname
  obtain ⟨hshown, hnone⟩ := hlatest ⟨key, record⟩ (mem_entries_iff.mpr hrecord)
    (castString_eq_some.mpr hstored)
  have hread : s.db.userField key .ItemsAuctioned = some (.number counted) :=
    hbecomes.read_eq hnone
  have hcount : record .ItemsAuctioned = some (.number counted) := by
    simpa [Database.userField, hrecord] using hread
  obtain ⟨record', hrecord', hcount'⟩ := Database.userField_eq_some.mp (hshown.trans hcount)
  -- the snapshot has the name, and names do not change
  have hstored' : record' .Username = some (.string name) := by
    obtain ⟨_, hvalue, text, rfl⟩ :=
      (users_readable h).1 users husers key record' hrecord' .Username
    have hsame := username_stable h husers
      (Database.username_eq_some.mpr ⟨record', hrecord', hvalue⟩)
    rw [hvalue, Option.some.inj (hname.symm.trans hsame)]
  refine .of_issue hnone ?_
  exact OpenNewAuctionViewController.countOf_countAuction hwrites hrecord' hstored' hcount' call

theorem Counted.act (h : ReachesUnder world ok now s) {c : ClientId} {action : Action}
    {client : Client} {issues : List Issue} (hlatest : s.ReadsLatest (.act c action))
    (hact : (s.client c).act (s.env world c (action.ends s.now)) action =
      some (.done client issues)) {key : Key} {name : String}
    (hname : s.db.username key = some name) (hcounted : s.Counted key name) (ends : Date) :
    (s.react c ends (.done client issues)).Counted key name := by
  obtain ⟨counted, pending, hsum, htally, hbecomes⟩ := hcounted
  obtain ⟨pending', htally', htotal⟩ := tally_react htally c ends client issues
  rw [Counted, auctionsBy_react]
  cases Client.act_counts hact with
  | other _ _ hsame hcalls hnone =>
      refine ⟨counted, pending', ?_, htally', hbecomes.issue_other fun issue hissue =>
        hnone issue hissue key⟩
      have hcall : issues.countP (fun issue => issue.call = .submitAuction (some name)) = 0 := by
        rw [List.countP_eq_zero]
        intro issue hissue
        simpa using hcalls issue hissue (some name)
      rw [hsame name] at htotal
      omega
  | auction later record htasks =>
      refine ⟨counted, pending', ?_, htally', hbecomes.issue_other (by simp [Issue.countOf])⟩
      rw [Client.counting, Client.counting, htasks, List.count_append, List.count_singleton]
        at htotal
      by_cases hsigned : (s.client c).signedInUserName = some name
      · simp [hsigned] at htotal ⊢
        omega
      · simp [hsigned] at htotal ⊢
        omega
  | count task snapshot author users writes hpending husers hwrites htasks =>
      have husers : s.states[snapshot]? = some users := husers
      obtain ⟨hauthor, hrecords⟩ := hlatest ⟨author, (s.client c).signedInUserName, users⟩
        (by simp [countRead, hpending, husers])
      have hread := List.mem_of_getElem? husers
      have hcall : (writes.map fun write => (⟨write, .userTask author⟩ : Issue)).countP
          (fun issue => issue.call = .submitAuction (some name)) = 0 := by
        simp [List.countP_eq_zero]
      have herase := Client.count_eraseIdx hpending ⟨.countAuction, some name⟩
      rw [Client.counting, Client.counting, htasks] at htotal
      dsimp only at hauthor hrecords
      by_cases hown : author = some name
      · subst hown
        rw [← hauthor] at hwrites
        rw [if_pos rfl] at herase
        refine ⟨counted + 1, pending', by omega, htally', ?_⟩
        exact countOf_read h hname hbecomes hread hwrites hrecords c
      · rw [if_neg (by simpa using hown)] at herase
        refine ⟨counted, pending', by omega, htally', hbecomes.issue_other ?_⟩
        have hne : ∀ other, (s.client c).signedInUserName = some other →
            users.username key ≠ some other := by
          intro other hsigned hshown
          have hsame := username_stable h hread hshown
          obtain rfl := Option.some.inj (hname.symm.trans hsame)
          exact hown (hauthor.trans hsigned)
        intro issue hissue
        exact OpenNewAuctionViewController.countOf_countAuction_ne hwrites hne _ issue hissue

theorem Counted.crash {key : Key} {name : String} (hcounted : s.Counted key name) (c : ClientId)
    (ends : Date) : (s.react c ends .crash).Counted key name := by
  obtain ⟨counted, pending, hsum, htally, hbecomes⟩ := hcounted
  have hsame : (fun o => ((s.react c ends .crash).client o).counting name) =
      fun o => (s.client o).counting name := by
    funext o
    by_cases heq : o = c
    · subst heq
      rw [react_crash_client]
      rfl
    · rw [react_client_ne heq]
  exact ⟨counted, pending, hsum, hsame ▸ htally, hbecomes⟩

/-- A crashed app waits for no count. -/
theorem crashed_idle (h : ReachesUnder world (CountsApart world) now s) (c : ClientId) :
    (s.client c).crashed = true → ∀ name, (s.client c).counting name = 0 := by
  refine h.invariant (fun s => (s.client c).crashed = true →
    ∀ name, (s.client c).counting name = 0) (fun _ _ => rfl) ?_
  rintro s l s' _ hinv ⟨_, _, hidle⟩ htaken hcrashed name
  rcases step_cases htaken with ⟨_, _, _, rfl⟩ | ⟨_, _, _, _, rfl⟩ |
    ⟨actor, action, rfl, _, hact, rfl⟩ | ⟨actor, action, client, issues, rfl, _, hact, rfl⟩
  · exact hinv hcrashed name
  · exact hinv hcrashed name
  · by_cases heq : c = actor
    · subst heq
      have hnone := hidle (s.client c) (by simp [crashes, hact])
      rw [react_crash_client, Client.counting, List.count_eq_zero]
      intro hmem
      exact hnone _ hmem rfl
    · rw [react_client_ne heq] at hcrashed ⊢
      exact hinv hcrashed name
  · by_cases heq : c = actor
    · subst heq
      rw [react_done_client, Client.act_running hact] at hcrashed
      cases hcrashed
    · rw [react_client_ne heq] at hcrashed ⊢
      exact hinv hcrashed name

theorem counted (h : ReachesUnder world (CountsApart world) now s) :
    ∀ key name, s.db.username key = some name → s.Counted key name := by
  refine h.invariant (fun s => ∀ key name, s.db.username key = some name → s.Counted key name)
    ?_ ?_
  · intro key name hname
    cases hname
  · rintro s l s' hprior hinv ⟨_, hlatest, _⟩ htaken
    have hfree : ReachesUnder world AddsFreeName now s := hprior.mono fun _ _ hok => hok.1
    rcases step_cases htaken with ⟨_, _, _, rfl⟩ | ⟨sender, net, rfl, hnet, rfl⟩ |
      ⟨c, action, rfl, _, hact, rfl⟩ | ⟨c, action, client, issues, rfl, _, hact, rfl⟩
    · exact hinv
    · intro key name hname
      obtain ⟨issue, _, _, hwire, hdb⟩ := delivered_eq hnet
      have hbacked := issue_backed hprior issue ((honest hprior).mem_issued hwire)
      have hname : (issue.apply s.db).username key = some name := by rwa [← hdb]
      rcases username_after hbacked hname with hold | hadds
      · exact (hinv key name hold).deliver hprior hnet
      · exact counted_of_signUp hfree hnet hwire hdb hadds
    · intro key name hname
      exact (hinv key name hname).crash c _
    · intro key name hname
      exact (hinv key name hname).act hprior hlatest hact hname _

/-- In a quiet state every account has its products counted, while each count is
read as it should be. -/
theorem items_counted (h : ReachesUnder world (CountsApart world) now s) (hquiet : s.Quiet) :
    s.ItemsCounted := by
  intro key name hname
  obtain ⟨counted, pending, hsum, htally, hbecomes⟩ := counted h key name hname
  have hnone : pending = 0 := by
    refine htally.eq_zero ?_
    intro c
    cases hcrashed : (s.client c).crashed with
    | false => exact hquiet.counts c hcrashed name
    | true => exact crashed_idle h c hcrashed name
  have hread : s.db.userField key .ItemsAuctioned = some (.number counted) :=
    hbecomes.of_quiet hquiet.wire
  rw [hread, hsum, hnone, add_zero]

/-- A client that takes no part in a run stays as it is. -/
theorem run_client {labels : List Label} {c : ClientId}
    (hlabels : ∀ l ∈ labels, ∀ action, l ≠ .act c action)
    (hrun : Machine.run (System.step world) s labels = some s') : s'.client c = s.client c := by
  induction labels generalizing s with
  | nil =>
      obtain rfl := Option.some.inj hrun
      rfl
  | cons l labels ih =>
      obtain ⟨next, hnext, hrest⟩ := Option.bind_eq_some_iff.mp hrun
      rw [ih (fun l' hl' => hlabels l' (List.mem_cons_of_mem _ hl')) hrest]
      have hother : ∀ actor action, l = .act actor action → c ≠ actor := by
        rintro actor action rfl rfl
        exact hlabels _ List.mem_cons_self action rfl
      rcases step_cases hnext with ⟨_, _, _, rfl⟩ | ⟨_, _, _, _, rfl⟩ |
        ⟨actor, action, hl, _, _, rfl⟩ | ⟨actor, action, _, _, hl, _, _, rfl⟩
      · rfl
      · rfl
      · exact react_client_ne (hother actor action hl) _ _
      · exact react_client_ne (hother actor action hl) _ _

/-- The client whose event a label is. -/
def actor : Label → Option ClientId
  | .act c _ => some c
  | _ => none

/-- A run of the first clients is quiet at its end when they are. -/
theorem quiet_of_run {labels : List Label} (clients : Nat)
    (hrun : Machine.run (System.step world) (start now) labels = some s)
    (hactors : ∀ l ∈ labels, ∀ c ∈ actor l, c < clients) (hwire : s.wire = [])
    (hidle : ∀ c < clients, ∀ task ∈ (s.client c).tasks, task.kind ≠ .countAuction) :
    s.Quiet := by
  refine ⟨hwire, ?_⟩
  intro c _ name
  rw [Client.counting, List.count_eq_zero]
  intro hmem
  by_cases hlt : c < clients
  · exact hidle c hlt _ hmem rfl
  · have hlabels : ∀ l ∈ labels, ∀ action, l ≠ .act c action := by
      rintro l hl action rfl
      exact hlt (hactors _ hl c rfl)
    rw [run_client hlabels hrun] at hmem
    cases hmem

theorem items_counted_of_lamp :
    ∃ s, ReachesUnder Scenario.world (CountsApart Scenario.world) Scenario.opening s ∧ s.Quiet ∧
      s.db.userField 0 .ItemsAuctioned = some (.number 1) ∧ s.ItemsCounted := by
  obtain ⟨s, hrun, hwire, hidle, hcount⟩ :
      ∃ s ∈ Machine.run (System.step Scenario.world) (start Scenario.opening) lampCounted,
        s.wire = [] ∧ (∀ c < 3, ∀ task ∈ (s.client c).tasks, task.kind ≠ .countAuction) ∧
        s.db.userField 0 .ItemsAuctioned = some (.number 1) := by
    decide +kernel
  have hreach : ReachesUnder Scenario.world (CountsApart Scenario.world) Scenario.opening s :=
    Machine.reaches_of_run lampCounted (by decide +kernel) hrun
  have hquiet : s.Quiet := quiet_of_run 3 hrun (by decide +kernel) hwire hidle
  exact ⟨s, hreach, hquiet, hcount, items_counted hreach hquiet⟩

/-- Sue opens an auction on one of her devices. -/
def opensOn (c : ClientId) : List Label :=
  [.act c (.selectTab .openNewAuction),
    .act c (.imagePicked (some "lamp.jpg") (some "lamp.jpg")),
    .act c (.uploadEnded 0 (some "https://host/lamp.jpg")),
    .act c (.fillForm "Lamp" "10" Scenario.closing), .act c (.submitAuction Scenario.opening)]

/-- And on another, and both read Users before either has counted. -/
def countLost : List Label :=
  [.act 0 (.signUp 0 "sue" "p"), .deliver 0, .act 0 (.login 1 "sue" "p"),
    .act 1 (.login 1 "sue" "p")] ++ opensOn 0 ++ opensOn 1 ++
  [.deliver 0, .deliver 1, .act 0 (.usersEvent 0 3), .act 1 (.usersEvent 0 3), .deliver 0,
    .deliver 1]

theorem not_items_counted :
    ¬ ∀ (world : World) (now : Date) (s : System), Reachable world now s → s.Quiet →
      s.ItemsCounted := by
  intro hcounts
  obtain ⟨s, hrun, hwire, hidle, hname, hcount, hauctions⟩ :
      ∃ s ∈ Machine.run (System.step Scenario.world) (start Scenario.opening) countLost,
        s.wire = [] ∧ (∀ c < 2, ∀ task ∈ (s.client c).tasks, task.kind ≠ .countAuction) ∧
        s.db.username 0 = some "sue" ∧
        s.db.userField 0 .ItemsAuctioned = some (.number 1) ∧ s.auctionsBy "sue" = 2 := by
    decide +kernel
  have hquiet : s.Quiet := quiet_of_run 2 hrun (by decide +kernel) hwire hidle
  have hcounted := hcounts _ _ s (Machine.reachable_of_run _ hrun) hquiet 0 "sue" hname
  rw [hcount, hauctions] at hcounted
  exact absurd hcounted (by decide)

end System

end Auctioneer
