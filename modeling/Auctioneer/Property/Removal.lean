import Auctioneer.Proof.Records

/-!
What a removed product can become. Its key is never created again, so that only
the two writes of a bid that was still on its way can bring the key back: a
record without the fields of an auction, which no screen can decode.
-/

namespace Auctioneer

namespace Database

/-- Nothing that an auction is created with is under the key, the price and the
bidder apart. -/
def Gone (db : Database) (key : Key) : Prop :=
  ∀ field, field ≠ .highestbidprice → field ≠ .highestbidder → db.productField key field = none

variable {db : Database} {key : Key}

theorem gone_of_lookup (h : db.products.lookup key = none) : db.Gone key := by
  intro field _ _
  simp [productField, h]

/-- No callback decodes a snapshot that has such a record. -/
theorem Gone.decodeProducts_eq_none (h : db.Gone key) (hthere : (db.products.lookup key).isSome)
    (zone : TimeZone) (now : Date) : decodeProducts zone now db = none := by
  obtain ⟨record, hrecord⟩ := Option.isSome_iff_exists.mp hthere
  cases hdecode : decodeProducts zone now db with
  | none => rfl
  | some items =>
      obtain ⟨item, _, hread⟩ := exists_mem_of_lookup hdecode hrecord
      have hname := h .productname (by decide) (by decide)
      simp [productField, hrecord, hread.productname] at hname

/-- A write that does not create the product leaves it gone. -/
theorem Gone.apply {world : World} {dbs : List Database} {issue : Issue} (h : db.Gone key)
    (hbacked : issue.Backed world dbs) (hcreates : issue.creates ≠ some key) :
    (issue.apply db).Gone key := by
  intro field hprice hbidder
  by_contra hfield
  obtain ⟨value, hvalue⟩ := Option.ne_none_iff_exists'.mp hfield
  rcases issue.sets_or_kept db (key, field) value hvalue with hsets | hkept
  · cases hbacked with
    | auction =>
        obtain ⟨rfl, _⟩ := hsets
        exact hcreates rfl
    | bid _ item amount bidder _ _ _ _ hbid =>
        rcases HomeFeedDetailsViewController.mem_bidIssues.mp hbid with rfl | rfl
        · exact hprice (Prod.mk.inj hsets.1).2
        · exact hbidder (Prod.mk.inj hsets.1).2
    | _ => cases hsets
  · simp [h field hprice hbidder] at hkept

end Database

namespace System

variable {world : World} {ok : System → Label → Prop} {now : Date} {s s' : System} {key : Key}

/-- One step: a product that has been there and is gone stays gone. -/
theorem gone_of_step (h : ReachesUnder world ok now s) {l : Label}
    (hstep : s.step world l = some s') {db : Database} (hdb : db ∈ s.states)
    (hheld : db.Holds key) (hgone : s.db.Gone key) : s'.db.Gone key := by
  rcases step_net hstep with ⟨hnet, _⟩ | ⟨sender, _, hnet, _⟩ | ⟨_, _, _, _, _, _, hnet, _⟩
  · rw [System.db, hnet]
    exact hgone
  · obtain ⟨issue, _, _, hwire, happlied⟩ := delivered_eq hnet
    rw [System.db, happlied]
    refine hgone.apply (issue_backed h issue ((honest h).mem_issued hwire)) ?_
    intro hcreates
    exact (keyed h).pending _ hwire key hcreates db hdb hheld
  · rw [System.db, hnet]
    exact hgone

/-- In every later state of the run nothing of the auction is there, and if the
key is, no screen decodes the snapshot. -/
def StaysRemoved (world : World) (s : System) (key : Key) : Prop :=
  ∀ s', Machine.Reachable (step world) s s' →
    s'.db.Gone key ∧ ((s'.db.products.lookup key).isSome →
      ∀ zone at', decodeProducts zone at' s'.db = none)

/-- A product that has been there and has been removed never comes back. -/
theorem stays_removed (h : Reachable world now s) {db : Database} (hdb : db ∈ s.states)
    (hthere : (db.products.lookup key).isSome) (hremoved : s.db.products.lookup key = none) :
    s.StaysRemoved world key := by
  intro s' hlater
  have hinv : db ∈ s'.states ∧ s'.db.Gone key := by
    refine hlater.invariant (fun s' => db ∈ s'.states ∧ s'.db.Gone key)
      ⟨hdb, Database.gone_of_lookup hremoved⟩ ?_
    rintro middle l next hmiddle ⟨hold, hgone⟩ _ hstep
    exact ⟨step_states hstep hold,
      gone_of_step (h.trans hmiddle) hstep hold (.inl hthere) hgone⟩
  exact ⟨hinv.2, fun hback => hinv.2.decodeProducts_eq_none hback⟩

/-- Sue removes the lamp while Amy has its screen open. -/
def lampRemoved : List Label :=
  Scenario.lampOpened ++ Scenario.openFirst 1 4 ++
    [.act 0 (.selectTab .yourListing), .act 0 (.productsEvent 1 4), .act 0 (.selectRow 0),
      .act 0 .deleteListing, .deliver 0]

/-- And Amy bids on it. -/
def lampHaunted : List Label := [.act 1 (.bidSubmit "20"), .deliver 1]

theorem stays_removed_of_lamp :
    ∃ s s', Reachable Scenario.world Scenario.opening s ∧
      Machine.Reachable (step Scenario.world) s s' ∧
      s'.db.highestbidprice Scenario.lamp = some 20 ∧
      s.StaysRemoved Scenario.world Scenario.lamp := by
  obtain ⟨s, hrun, hremoved, ⟨db, hdb, hthere⟩, s', hrun', hprice⟩ :
      ∃ s ∈ Machine.run (step Scenario.world) (.start Scenario.opening) lampRemoved,
        s.db.products.lookup Scenario.lamp = none ∧
        (∃ db ∈ s.states, (db.products.lookup Scenario.lamp).isSome) ∧
        ∃ s' ∈ Machine.run (step Scenario.world) s lampHaunted,
          s'.db.highestbidprice Scenario.lamp = some 20 := by
    decide +kernel
  have hreach := Machine.reachable_of_run _ hrun
  exact ⟨s, s', hreach, Machine.reachable_of_run _ hrun', hprice,
    stays_removed hreach hdb hthere hremoved⟩

end System

end Auctioneer
