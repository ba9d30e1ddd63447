import Auctioneer.Proof.Records

/-!
The callbacks loop over a Swift dictionary, whose order is arbitrary. Two
snapshots with the same records may be looped over in different orders: what a
callback does is the same but for the order of the rows and of the writes, and
for which of several matching accounts a login signs in.
-/

namespace Auctioneer

/-- Two databases with the same records, in any order. -/
structure Database.Same (db db' : Database) : Prop where
  products : ∀ key, db.products.lookup key = db'.products.lookup key
  users : ∀ key, db.users.lookup key = db'.users.lookup key

/-- Tables with the same records have the same entries, in some order. -/
theorem Table.entries_perm {Record : Type} {table table' : Table Record}
    (h : ∀ key, table.lookup key = table'.lookup key) : table.entries.Perm table'.entries := by
  refine List.lookup_ext table.nodupKeys table'.nodupKeys ?_
  intro key record
  have hkey := h key
  rw [AList.lookup, AList.lookup] at hkey
  rw [hkey]

namespace Database.Same

variable {db db' : Database} {zone : TimeZone} {now : Date} {signedIn : Option String}

theorem refl (db : Database) : db.Same db := ⟨fun _ => rfl, fun _ => rfl⟩

theorem symm (h : db.Same db') : db'.Same db :=
  ⟨fun key => (h.products key).symm, fun key => (h.users key).symm⟩

theorem trans {db'' : Database} (h : db.Same db') (h' : db'.Same db'') : db.Same db'' :=
  ⟨fun key => (h.products key).trans (h'.products key),
    fun key => (h.users key).trans (h'.users key)⟩

/-- What a screen decodes. -/
theorem decode (h : db.Same db') :
    Option.Rel List.Perm (decodeProducts zone now db) (decodeProducts zone now db') :=
  Traverse.mapM_perm (Table.entries_perm h.products)

/-- What a Users callback collects, record by record. -/
theorem collect {α : Type} (h : db.Same db')
    (update : (Sigma fun _ : Key => UserRecord) → Option (List α)) :
    Option.Rel List.Perm ((db.users.entries.mapM update).map List.flatten)
      ((db'.users.entries.mapM update).map List.flatten) :=
  Traverse.rel_map (Traverse.mapM_perm (Table.entries_perm h.users)) fun _ _ => List.Perm.flatten

end Database.Same

theorem keepFor_perm {signedIn : Option String} {keep : String → AuctionItem → Bool}
    {items items' : List AuctionItem} (h : items.Perm items') :
    Option.Rel List.Perm (keepFor signedIn keep items) (keepFor signedIn keep items') := by
  cases signedIn with
  | some userName => exact .some (h.filter _)
  | none =>
      have hempty : items.isEmpty = items'.isEmpty := by
        rw [Bool.eq_iff_iff, List.isEmpty_iff, List.isEmpty_iff]
        exact ⟨fun hnil => (hnil ▸ h).nil_eq.symm, fun hnil => (hnil ▸ h).eq_nil⟩
      simp only [keepFor, hempty]
      split
      · exact .some .nil
      · exact .none

/-- The records that a login matches, as one loop. -/
theorem LoginViewController.signIn_eq (username password : String)
    (pairs : List (Sigma fun _ : Key => UserRecord)) :
    signIn username password pairs =
      (pairs.mapM fun pair => (authenticates username password pair.2).map fun found =>
        if found then [(pair.1, username)] else []).map List.flatten := by
  induction pairs with
  | nil => rfl
  | cons pair rest ih =>
      rw [signIn, ih, List.mapM_cons]
      cases authenticates username password pair.2 with
      | none => rfl
      | some found =>
          generalize rest.mapM (fun pair => (authenticates username password pair.2).map _) = others
          cases others <;> cases found <;> rfl

/-- What no order of the loops changes. -/
structure Indifferent (db db' : Database) : Prop where
  homeFeed : ∀ zone now,
    Option.Rel List.Perm (HomeFeedViewController.retrieveData zone now db)
      (HomeFeedViewController.retrieveData zone now db')
  yourListing : ∀ zone now signedIn,
    Option.Rel List.Perm (YourListingViewController.retrieveData zone now signedIn db)
      (YourListingViewController.retrieveData zone now signedIn db')
  auctionWon : ∀ zone now signedIn,
    Option.Rel List.Perm (AuctionWonViewController.retrieveData zone now signedIn db)
      (AuctionWonViewController.retrieveData zone now signedIn db')
  profile : ∀ zone now signedIn totals,
    ProfileViewController.retrieveData zone now signedIn db totals =
      ProfileViewController.retrieveData zone now signedIn db' totals
  signUp : ∀ username password,
    SignUpViewController.signUpButton db username password =
      SignUpViewController.signUpButton db' username password
  login : ∀ username password,
    Option.Rel (fun outcome outcome' => outcome.presented = outcome'.presented ∧
        outcome.alerts = outcome'.alerts ∧
        (outcome.presented ≤ 1 → outcome.session = outcome'.session))
      (LoginViewController.submitLogin db username password)
      (LoginViewController.submitLogin db' username password)
  writes : ∀ signedIn field value,
    Option.Rel List.Perm (ownUpdates db signedIn field value)
      (ownUpdates db' signedIn field value)

end Auctioneer
