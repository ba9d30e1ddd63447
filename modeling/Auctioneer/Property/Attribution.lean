import Auctioneer.Proof.Records

/-!
Who is charged for work on Users. A count, a Won total and a profile image are
written by a callback that looks up `SignedIn_UserName` when it runs; by then
another user may be signed in.
-/

namespace Auctioneer

/-- The user whose record a write updates. -/
def Issue.updatesUser (issue : Issue) : Option Key :=
  match issue.write with
  | .updateUser key _ _ => some key
  | _ => none

namespace System

/-- Every update of a record of Users was started by the user it belongs to. -/
def ChargesAuthors (s : System) : Prop :=
  ∀ issue ∈ s.net.issued, ∀ key, issue.updatesUser = some key →
    ∃ name, issue.call = .userTask (some name) ∧ s.db.username key = some name

/-- The client of a Users callback and the task that the callback completes. -/
def completion (s : System) : Label → Option (Client × UserTask)
  | .act c (.usersEvent task _) => (s.client c).tasks[task]?.map (s.client c, ·)
  | _ => none

/-- A Users callback runs while the user who started its task is signed in. -/
def CompletesForAuthor (s : System) (l : Label) : Prop :=
  ∀ entry ∈ s.completion l, entry.2.author = entry.1.signedInUserName

instance (s : System) (l : Label) : Decidable (s.CompletesForAuthor l) :=
  inferInstanceAs (Decidable (∀ entry ∈ s.completion l, _))

variable {world : World} {now : Date} {s : System}

/-- One callback: its updates go to records of the signed-in user. -/
theorem updates_of_act {c : ClientId} {action : Action} {client : Client}
    {issues : List Issue} (hok : s.CompletesForAuthor (.act c action))
    (hact : (s.client c).act (s.env world c (action.ends s.now)) action =
      some (.done client issues)) :
    ∀ issue ∈ issues, ∀ key, issue.updatesUser = some key →
      ∃ name, issue.call = .userTask (some name) ∧
        ∃ db ∈ s.states, db.username key = some name := by
  intro issue hissue key hkey
  cases Client.act_issued hact issue hissue with
  | task task snapshot pending users updated field value name hpending husers _ _ hsigned
      hname =>
      obtain rfl : updated = key := Option.some.inj hkey
      have hauthor : pending.author = (s.client c).signedInUserName :=
        hok (s.client c, pending) (by simp [completion, hpending])
      exact ⟨name, by rw [hauthor, hsigned], users, husers, hname⟩
  | bid _ _ _ _ _ _ _ _ hbid =>
      rcases HomeFeedDetailsViewController.mem_bidIssues.mp hbid with rfl | rfl <;> cases hkey
  | _ => cases hkey

/-- While every Users callback runs for the user who started its task, every
update goes to a record of that user. -/
theorem charges_authors (h : ReachesUnder world CompletesForAuthor now s) :
    s.ChargesAuthors := by
  have hissued := issue_invariant
    (fun dbs issue => ∀ key, issue.updatesUser = some key →
      ∃ name, issue.call = .userTask (some name) ∧ ∃ db ∈ dbs, db.username key = some name)
    (fun hsub hinv key hkey => by
      obtain ⟨name, hcall, db, hdb, hname⟩ := hinv key hkey
      exact ⟨name, hcall, db, hsub hdb, hname⟩)
    (fun _ hok hact => updates_of_act hok hact) h
  intro issue hissue key hkey
  obtain ⟨name, hcall, db, hdb, hname⟩ := hissued issue hissue key hkey
  exact ⟨name, hcall, username_stable h hdb hname⟩

/-- Sue picks a profile image on the device of client 0. -/
def imageUploading : List Label :=
  [.act 0 (.signUp 0 "sue" "p"), .deliver 0, .act 1 (.signUp 0 "amy" "q"), .deliver 1,
    .act 0 (.login 2 "sue" "p"), .act 0 (.selectTab .profile), .act 0 .profileImagePicked]

/-- The upload and the read of Users end while she is signed in. -/
def imageStored : List Label :=
  imageUploading ++ [.act 0 (.profileUploadEnded 0 (some "https://host/sue.jpg")),
    .act 0 (.usersEvent 0 2), .deliver 0]

theorem charges_authors_of_image :
    ∃ s, ReachesUnder (World.sharing (TimeZone.fixed 480)) CompletesForAuthor 0 s ∧
      s.db.userField 0 .ProfileImage = some (.string "https://host/sue.jpg") ∧
      s.ChargesAuthors := by
  obtain ⟨s, hreach, himage⟩ : ∃ s, ReachesUnder (World.sharing (TimeZone.fixed 480))
      CompletesForAuthor 0 s ∧
      s.db.userField 0 .ProfileImage = some (.string "https://host/sue.jpg") :=
    Machine.exists_reaches imageStored (by decide +kernel) (by decide +kernel)
  exact ⟨s, hreach, himage, charges_authors hreach⟩

/-- Sue signs out and Amy signs in on her device before the upload ends. -/
def imageOfAnother : List Label :=
  imageUploading ++ [.act 0 .signOut, .act 0 (.login 2 "amy" "q"),
    .act 0 (.profileUploadEnded 0 (some "https://host/sue.jpg")), .act 0 (.usersEvent 0 2)]

theorem not_charges_authors :
    ¬ ∀ (world : World) (now : Date) (s : System), Reachable world now s →
      s.ChargesAuthors := by
  intro hcharges
  obtain ⟨s, hreach, hamy, issue, hissue, hkey, hcall⟩ :
      ∃ s, Reachable (World.sharing (TimeZone.fixed 480)) 0 s ∧
        s.db.username 1 = some "amy" ∧ ∃ issue ∈ s.net.issued,
          issue.updatesUser = some 1 ∧ issue.call = .userTask (some "sue") :=
    Machine.exists_reachable imageOfAnother (by decide +kernel)
  obtain ⟨name, hname, hstored⟩ := hcharges _ _ s hreach issue hissue 1 hkey
  rw [hamy, Option.some.injEq] at hstored
  subst hstored
  exact absurd (hname.symm.trans hcall) (by decide)

end System

end Auctioneer
