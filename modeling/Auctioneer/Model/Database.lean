import Auctioneer.Library.Outbox
import Auctioneer.Model.SwiftDouble
import Mathlib.Data.List.AList

/-!
The Realtime Database: two tables of JSON records under generated keys, and the
writes the app makes to them. A write to one field creates the record it is in
when there is none.
-/

namespace Auctioneer

/-- A key made by `childByAutoId`. Keys are never made twice. -/
abbrev Key := Nat

/-- A leaf of the JSON tree. -/
inductive Value where
  | string (text : String)
  | number (value : ℚ)
deriving DecidableEq, Repr

namespace Value

/-- A cast to a Swift type, where `none` is a trap. -/
def asString : Value → Option String
  | .string text => some text
  | .number _ => none

def asDouble : Value → Option Price
  | .string _ => none
  | .number value => some value

def asInt : Value → Option ℤ
  | .string _ => none
  | .number value => if value.den = 1 then some value.num else none

/-- `Double("\(value)")!`, for the finite values that the database holds. -/
def described : Value → Option Price
  | .number value => some value
  | .string text =>
      match Double.ofText text with
      | some (.finite value) => some value
      | _ => none

end Value

/-- `pairs.value["field"] as! String`. -/
def castString (value : Option Value) : Option String := value.bind Value.asString

/-- `pairs.value["field"] as! Double`. -/
def castDouble (value : Option Value) : Option Price := value.bind Value.asDouble

/-- `pairs.value["field"] as! Int`. -/
def castInt (value : Option Value) : Option ℤ := value.bind Value.asInt

@[simp] theorem castString_eq_some {value : Option Value} {text : String} :
    castString value = some text ↔ value = some (.string text) := by
  rcases value with _ | (_ | _) <;> simp [castString, Value.asString]

@[simp] theorem castDouble_eq_some {value : Option Value} {price : Price} :
    castDouble value = some price ↔ value = some (.number price) := by
  rcases value with _ | (_ | _) <;> simp [castDouble, Value.asDouble]

inductive ProductField where
  | productname | imageurl | openby | opendate | closedate
  | startingprice | highestbidprice | highestbidder
deriving DecidableEq, Repr

inductive UserField where
  | Username | Password | ItemsAuctioned | AuctionsWon | ProfileImage
deriving DecidableEq, Repr

abbrev ProductRecord := ProductField → Option Value
abbrev UserRecord := UserField → Option Value

abbrev Table (Record : Type) := AList fun _ : Key => Record

/-- `table.child(key).child(field).setValue(value)` and
`table.child(key).updateChildValues([field: value])`. -/
def Table.setField {Field : Type} [DecidableEq Field]
    (table : Table (Field → Option Value)) (key : Key) (field : Field) (value : Value) :
    Table (Field → Option Value) :=
  table.insert key (Function.update ((table.lookup key).getD fun _ => none) field (some value))

theorem Table.lookup_setField {Field : Type} [DecidableEq Field]
    (table : Table (Field → Option Value)) (key : Key) (field : Field) (value : Value)
    (other : Key) :
    (table.setField key field value).lookup other =
      if other = key then
        some (Function.update ((table.lookup key).getD fun _ => none) field (some value))
      else table.lookup other := by
  unfold Table.setField
  split
  · next h =>
    subst h
    exact AList.lookup_insert _
  · next h => exact AList.lookup_insert_ne h

theorem Table.lookup_erase' {Record : Type} (table : Table Record) (key other : Key) :
    (table.erase key).lookup other = if other = key then none else table.lookup other := by
  split
  · next h =>
    subst h
    exact AList.lookup_erase _ _
  · next h => exact AList.lookup_erase_ne h

theorem Table.lookup_insert' {Record : Type} (table : Table Record) (key other : Key)
    (record : Record) :
    (table.insert key record).lookup other =
      if other = key then some record else table.lookup other := by
  split
  · next h =>
    subst h
    exact AList.lookup_insert _
  · next h => exact AList.lookup_insert_ne h

structure Database where
  products : Table ProductRecord
  users : Table UserRecord

def Database.empty : Database := ⟨∅, ∅⟩

inductive Write where
  | setProduct (key : Key) (record : ProductRecord)
  | setProductField (key : Key) (field : ProductField) (value : Value)
  | removeProduct (key : Key)
  | setUser (key : Key) (record : UserRecord)
  | updateUser (key : Key) (field : UserField) (value : Value)

def Write.apply : Write → Database → Database
  | .setProduct key record, db => { db with products := db.products.insert key record }
  | .setProductField key field value, db =>
      { db with products := db.products.setField key field value }
  | .removeProduct key, db => { db with products := db.products.erase key }
  | .setUser key record, db => { db with users := db.users.insert key record }
  | .updateUser key field value, db => { db with users := db.users.setField key field value }

/-- The user action that issued a write. It is history only: the database does
not see it. -/
inductive Call where
  | submitAuction (author : Option String)
  | bidSubmit (key : Key) (amount : Price) (bidder : String)
  /-- A press on the details screen built for the product `shown`. -/
  | deleteListing (shown : Key) (author : Option String)
  | signUp (username : String)
  /-- Work on the Users table that `author` started and that completes later. -/
  | userTask (author : Option String)
deriving DecidableEq, Repr

structure Issue where
  write : Write
  call : Call

def Issue.apply (issue : Issue) : Database → Database := issue.write.apply

namespace Database

variable (db : Database) (key : Key)

/-- A field of a product, if the product and the field are there. -/
def productField (field : ProductField) : Option Value :=
  (db.products.lookup key).bind fun record => record field

def userField (field : UserField) : Option Value :=
  (db.users.lookup key).bind fun record => record field

/-- The stored `highestbidprice` of a product. -/
def highestbidprice : Option Price :=
  castDouble (db.productField key .highestbidprice)

/-- The stored `highestbidder` of a product. -/
def highestbidder : Option String :=
  castString (db.productField key .highestbidder)

def username : Option String :=
  castString (db.userField key .Username)

end Database

end Auctioneer
