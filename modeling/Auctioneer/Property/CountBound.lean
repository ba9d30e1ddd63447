import Auctioneer.Property.Attribution
import Auctioneer.Property.ItemCount

/-!
`ItemsAuctioned` from above. Devices that read the same count lose auctions,
snapshots are old and writes arrive late; but a count only ever adds one to a
count that was written before, so that no account is credited with more auctions
than it has had accepted.
-/

namespace Auctioneer

namespace System

variable {world : World} {ok : System → Label → Prop} {now : Date} {s s' : System} {key : Key}
  {name : String}

/-- Every field that a user has had was written by an issued write. -/
theorem userField_written (h : ReachesUnder world ok now s) :
    Outbox.Written (fun db (cell : Key × UserField) => db.userField cell.1 cell.2)
      Issue.SetsUser s.net := by
  refine net_invariant (Outbox.Written _ Issue.SetsUser) (.of_start fun _ => rfl) ?_ ?_ h
  · intro s sender net hprior _ hnet hwritten
    exact hwritten.deliver (honest hprior) hnet Issue.setsUser_or_kept
  · intro _ _ _ _ _ _ _ _ hwritten
    exact hwritten.issue _

/-- No issued write gives the account a count above `done`. -/
def CountsTo (s : System) (key : Key) (done : ℕ) : Prop :=
  ∀ issue ∈ s.net.issued, ∀ value, issue.SetsUser (key, .ItemsAuctioned) value →
    ∃ count : ℕ, value = .number count ∧ count ≤ done

/-- The counts that are done and those outstanding are at most the accepted
auctions, and no record of the name has a higher count than those done. -/
def Bounded (s : System) (name : String) : Prop :=
  ∃ done pending : ℕ, done + pending ≤ s.auctionsBy name ∧
    Ledger.Tally (fun c => (s.client c).counting name) pending ∧
    ∀ key, s.db.username key = some name → s.CountsTo key done

/-- What a database shows of a count was written. -/
theorem CountsTo.count_le (h : ReachesUnder world ok now s) {done : ℕ}
    (hcounts : s.CountsTo key done) {db : Database} (hdb : db ∈ s.states) {value : Value}
    (hvalue : db.userField key .ItemsAuctioned = some value) :
    ∃ count : ℕ, value = .number count ∧ count ≤ done := by
  obtain ⟨issue, hissue, hsets⟩ := userField_written h db hdb (key, .ItemsAuctioned) value hvalue
  exact hcounts issue hissue value hsets

/-- A new account: every write to its count is its creation. -/
theorem countsTo_zero (h : ReachesUnder world ok now s) {sent : ClientId × Issue}
    (hwire : sent ∈ s.wire) (hadds : sent.2.addsUser = some (key, name)) : s.CountsTo key 0 := by
  obtain ⟨record, hwrite, _⟩ := Issue.addsUser_eq_some.mp hadds
  have hcreates : sent.2.creates = some key := by simp [Issue.creates, hwrite]
  intro issue hissue value hsets
  have hbacked := issue_backed h issue hissue
  cases hbacked with
  | signUp created username password =>
      obtain ⟨_, hvalue⟩ := hsets
      exact ⟨0, by simpa [SignUpViewController.userRecord] using hvalue.symm, le_refl 0⟩
  | task updated field new author other db hdb hname =>
      obtain rfl := (Prod.mk.inj hsets.1).1
      exact absurd (Database.holds_of_username hname)
        ((keyed h).pending sent hwire _ hcreates db hdb)
  | bid _ _ _ _ _ _ _ _ hbid =>
      rcases HomeFeedDetailsViewController.mem_bidIssues.mp hbid with rfl | rfl <;> cases hsets
  | _ => cases hsets

theorem Bounded.deliver (h : ReachesUnder world ok now s) (hbounded : s.Bounded name)
    {sender : ClientId} {net : Outbox.Net ClientId Issue Database}
    (hnet : s.net.deliver sender Issue.apply = some net) :
    Bounded { s with net } name := by
  obtain ⟨done, pending, hsum, htally, hcounts⟩ := hbounded
  have hissued := Outbox.Net.deliver_issued hnet
  obtain ⟨issue, _, _, hwire, hdb⟩ := delivered_eq hnet
  refine ⟨done, pending, ?_, htally, ?_⟩
  · rw [auctionsBy, hissued]
    exact hsum
  · intro key hname
    have hname : (issue.apply s.db).username key = some name := hdb ▸ hname
    have hbacked := issue_backed h issue ((honest h).mem_issued hwire)
    have hkey : s.CountsTo key done := by
      rcases username_after hbacked hname with hold | hadds
      · exact hcounts key hold
      · intro other hother value hsets
        obtain ⟨count, rfl, hcount⟩ := countsTo_zero h hwire hadds other hother value hsets
        exact ⟨count, rfl, hcount.trans (Nat.zero_le done)⟩
    intro other hother
    exact hkey other (hissued ▸ hother)

/-- What a count writes to an account of the user signed in is one more than a
database has shown. -/
theorem countsTo_of_count (h : ReachesUnder world ok now s) {done : ℕ}
    (hcounts : s.CountsTo key done) {users : Database} (husers : users ∈ s.states)
    {signedIn : Option String} {writes : List Write}
    (hwrites : OpenNewAuctionViewController.countAuction users signedIn = some writes)
    {write : Write} (hwrite : write ∈ writes) {call : Call} {value : Value}
    (hsets : Issue.SetsUser ⟨write, call⟩ (key, .ItemsAuctioned) value) :
    ∃ count : ℕ, value = .number count ∧ count ≤ done + 1 := by
  obtain ⟨updated, new, user, record, rfl, _, hlookup, _, hnew⟩ := mem_ownUpdates hwrites hwrite
  obtain ⟨hcell, rfl⟩ := hsets
  obtain rfl := (Prod.mk.inj hcell).1
  obtain ⟨count, hcount, hvalue⟩ := Option.bind_eq_some_iff.mp hnew
  obtain rfl := Option.some.inj hvalue
  cases hfield : record .ItemsAuctioned with
  | none => simp [hfield, castInt] at hcount
  | some stored =>
      obtain ⟨read, rfl, hread⟩ := hcounts.count_le h husers
        (Database.userField_eq_some.mpr ⟨record, hlookup, hfield⟩)
      rw [hfield, castInt_natCast] at hcount
      obtain rfl := Option.some.inj hcount
      exact ⟨read + 1, by push_cast; rfl, Nat.succ_le_succ hread⟩

/-- An event that completes no count writes at most the count of a new account. -/
theorem setsUser_of_act {c : ClientId} {action : Action} {client : Client}
    {issues : List Issue}
    (hact : (s.client c).act (s.env world c (action.ends s.now)) action =
      some (.done client issues))
    (hother : ∀ issue ∈ issues, ∀ key, issue.countOf key = none) {issue : Issue}
    (hissue : issue ∈ issues) {value : Value}
    (hsets : issue.SetsUser (key, .ItemsAuctioned) value) : value = .number (0 : ℕ) := by
  have hnone := hother issue hissue key
  cases Client.act_issued hact issue hissue with
  | signUp =>
      obtain ⟨_, hvalue⟩ := hsets
      simpa [SignUpViewController.userRecord] using hvalue.symm
  | task =>
      obtain ⟨hcell, rfl⟩ := hsets
      obtain ⟨rfl, rfl⟩ := Prod.mk.inj hcell
      simp [Issue.countOf] at hnone
  | bid _ _ _ _ _ _ _ _ hbid =>
      rcases HomeFeedDetailsViewController.mem_bidIssues.mp hbid with rfl | rfl <;> cases hsets
  | _ => cases hsets

/-- New writes keep a bound that they keep to. -/
theorem CountsTo.issue {done done' : ℕ} (hcounts : s.CountsTo key done) (hle : done ≤ done')
    (c : ClientId) (ends : Date) (client : Client) {issues : List Issue}
    (hnew : ∀ issue ∈ issues, ∀ value, issue.SetsUser (key, .ItemsAuctioned) value →
      ∃ count : ℕ, value = .number count ∧ count ≤ done') :
    (s.react c ends (.done client issues)).CountsTo key done' := by
  intro issue hissue value hsets
  rw [react_done_net, Outbox.Net.issue_issued, List.mem_append] at hissue
  rcases hissue with hold | hadded
  · obtain ⟨count, rfl, hcount⟩ := hcounts issue hold value hsets
    exact ⟨count, rfl, hcount.trans hle⟩
  · exact hnew issue hadded value hsets

theorem Bounded.act (h : ReachesUnder world ok now s) {c : ClientId} {action : Action}
    {client : Client} {issues : List Issue} (hauthors : s.CompletesForAuthor (.act c action))
    (hact : (s.client c).act (s.env world c (action.ends s.now)) action =
      some (.done client issues))
    (hbounded : s.Bounded name) (ends : Date) :
    (s.react c ends (.done client issues)).Bounded name := by
  obtain ⟨done, pending, hsum, htally, hcounts⟩ := hbounded
  obtain ⟨pending', htally', htotal⟩ := tally_react htally c ends client issues
  rw [Bounded, auctionsBy_react]
  cases Client.act_counts hact with
  | other _ _ hsame _ hnone =>
      rw [hsame name] at htotal
      refine ⟨done, pending', by omega, htally', fun key hname => ?_⟩
      refine (hcounts key hname).issue (le_refl done) c ends client ?_
      intro issue hissue value hsets
      exact ⟨0, setsUser_of_act hact hnone hissue hsets, Nat.zero_le done⟩
  | auction later record htasks =>
      refine ⟨done, pending', ?_, htally', fun key hname => ?_⟩
      · rw [Client.counting, Client.counting, htasks, List.count_append, List.count_singleton]
          at htotal
        by_cases hsigned : (s.client c).signedInUserName = some name
        · simp [hsigned] at htotal ⊢
          omega
        · simp [hsigned] at htotal ⊢
          omega
      refine (hcounts key hname).issue (le_refl done) c ends client ?_
      intro issue hissue value hsets
      obtain rfl := List.mem_singleton.mp hissue
      cases hsets
  | count task snapshot author users writes hpending husers hwrites htasks =>
      have hread := List.mem_of_getElem? husers
      have hauthor : author = (s.client c).signedInUserName :=
        hauthors (s.client c, ⟨.countAuction, author⟩) (by simp [completion, hpending])
      have herase := Client.count_eraseIdx hpending ⟨.countAuction, some name⟩
      rw [Client.counting, Client.counting, htasks] at htotal
      by_cases hown : author = some name
      · rw [if_pos (by rw [hown])] at herase
        refine ⟨done + 1, pending', by omega, htally', fun key hname => ?_⟩
        refine (hcounts key hname).issue (Nat.le_succ done) c ends client ?_
        intro issue hissue value hsets
        obtain ⟨write, hwrite, rfl⟩ := List.mem_map.mp hissue
        exact countsTo_of_count h (hcounts key hname) hread hwrites hwrite hsets
      · rw [if_neg (by simpa using hown)] at herase
        refine ⟨done, pending', by omega, htally', fun key hname => ?_⟩
        refine (hcounts key hname).issue (le_refl done) c ends client ?_
        have hne : ∀ other, (s.client c).signedInUserName = some other →
            users.username key ≠ some other := by
          intro other hsigned hshown
          have hsame := username_stable h hread hshown
          obtain rfl := Option.some.inj (hname.symm.trans hsame)
          exact hown (hauthor.trans hsigned)
        intro issue hissue value hsets
        have hnone := OpenNewAuctionViewController.countOf_countAuction_ne hwrites hne
          (.userTask author) issue hissue
        obtain ⟨write, hwrite, rfl⟩ := List.mem_map.mp hissue
        obtain ⟨_, _, _, _, rfl, _⟩ := mem_ownUpdates hwrites hwrite
        obtain ⟨hcell, rfl⟩ := hsets
        obtain rfl := (Prod.mk.inj hcell).1
        simp [Issue.countOf] at hnone

theorem Bounded.crash (hbounded : s.Bounded name) (c : ClientId) (ends : Date) :
    (s.react c ends .crash).Bounded name := by
  obtain ⟨done, pending, hsum, htally, hcounts⟩ := hbounded
  have hsame : (fun o => ((s.react c ends .crash).client o).counting name) =
      fun o => (s.client o).counting name := by
    funext o
    by_cases heq : o = c
    · subst heq
      rw [react_crash_client]
      rfl
    · rw [react_client_ne heq]
  exact ⟨done, pending, hsum, hsame ▸ htally, hcounts⟩

theorem bounded (h : ReachesUnder world CompletesForAuthor now s) (name : String) :
    s.Bounded name := by
  refine h.invariant (fun s => s.Bounded name) ?_ ?_
  · refine ⟨0, 0, le_refl _, .zero, ?_⟩
    intro key hname
    cases hname
  · intro s l s' hprior hinv hauthors htaken
    rcases step_cases htaken with ⟨_, _, _, rfl⟩ | ⟨_, _, _, hnet, rfl⟩ |
      ⟨c, _, rfl, _, _, rfl⟩ | ⟨c, _, _, _, rfl, _, hact, rfl⟩
    · exact hinv
    · exact hinv.deliver hprior hnet
    · exact hinv.crash c _
    · exact hinv.act hprior hauthors hact _

/-- No state of the database credits an account with more than the auctions it
has had accepted, less those whose count is outstanding. -/
def NotOverCounted (s : System) : Prop :=
  ∀ key name, s.db.username key = some name →
    ∃ pending, Ledger.Tally (fun c => (s.client c).counting name) pending ∧
      ∀ db ∈ s.states, ∀ value, db.userField key .ItemsAuctioned = some value →
        ∃ count : ℕ, value = .number count ∧ count + pending ≤ s.auctionsBy name

/-- While every Users callback runs for the user who started its task, lost and
late updates only ever take auctions off an account. -/
theorem not_over_counted (h : ReachesUnder world CompletesForAuthor now s) :
    s.NotOverCounted := by
  intro key name hname
  obtain ⟨done, pending, hsum, htally, hcounts⟩ := bounded h name
  refine ⟨pending, htally, ?_⟩
  intro db hdb value hvalue
  obtain ⟨count, rfl, hcount⟩ := (hcounts key hname).count_le h hdb hvalue
  exact ⟨count, rfl, (Nat.add_le_add_right hcount pending).trans hsum⟩

/-- One of Sue's two auctions is lost. -/
theorem not_over_counted_of_sue :
    ∃ s, ReachesUnder Scenario.world CompletesForAuthor Scenario.opening s ∧
      s.db.userField 0 .ItemsAuctioned = some (.number 1) ∧ s.auctionsBy "sue" = 2 ∧
      s.NotOverCounted := by
  obtain ⟨s, hreach, hcount, hauctions⟩ :
      ∃ s, ReachesUnder Scenario.world CompletesForAuthor Scenario.opening s ∧
        s.db.userField 0 .ItemsAuctioned = some (.number 1) ∧ s.auctionsBy "sue" = 2 :=
    Machine.exists_reaches countLost (by decide +kernel) (by decide +kernel)
  exact ⟨s, hreach, hcount, hauctions, not_over_counted hreach⟩

end System

end Auctioneer
