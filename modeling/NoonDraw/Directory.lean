import NoonDraw.Entity
import NoonDraw.Failure

/-!
# The user directory

Records of users, by identifier. The directory decides nothing: it only adds names to what is shown,
and a user it does not know is shown without one. As with the log, `outages` says what the n-th access
meets.
-/

namespace NoonDraw

/-- The records of users. -/
structure Directory where
  /-- The records, by user. -/
  users : Table UserId User := ∅
  /-- What the n-th access meets. -/
  outages : Nat → Option StoreError := fun _ => none
  /-- How many accesses there have been. -/
  accesses : Nat := 0

namespace Directory

/-- The directory of some records; a later record of a user replaces an earlier one. -/
def ofUsers (users : List User) : Directory := { users := Table.ofList (users.map fun u => (u.id, u)) }

/-- Adds or replaces a record. -/
def insert (d : Directory) (u : User) : Directory := { d with users := d.users.insert u.id u }

/-- Reaches the directory, unless there is an outage. -/
def reach {α : Type} (d : Directory) (answer : Table UserId User → α) :
    Except StoreError α × Directory :=
  let met := d.outages d.accesses
  let d := { d with accesses := d.accesses + 1 }
  match met with
  | some error => (.error error, d)
  | none => (.ok (answer d.users), d)

/-- Looks up a user. -/
def get (d : Directory) (id : UserId) : Except StoreError (Option User) × Directory :=
  d.reach fun users => users.get? id

/-- Lists all users. -/
def list (d : Directory) : Except StoreError (Table UserId User) × Directory := d.reach id

end Directory

end NoonDraw
