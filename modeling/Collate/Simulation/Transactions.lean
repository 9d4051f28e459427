/-
Transactions of customers. A customer has one billing record and any number of ordered items; a
transaction puts them together. Every customer has a card and two orders, except for those said to
be without. The sources answer at once and write down the ids they are called with.

These are `Customer`, `BillingInfo`, `OrderItem` and `Transaction` with `billing_infos`,
`order_items`, `repeated_customers`, `transaction_assembler` and the `CallLog` of both sources.
-/
import Collate.Assembly

set_option autoImplicit false

namespace Collate.Simulation.Transactions

/-- A customer. -/
structure Customer where
  id : UInt64
  name : String

/-- How a customer pays. -/
structure Billing where
  customer : UInt64
  card : String

/-- A thing a customer ordered. -/
structure OrderItem where
  id : UInt64
  customer : UInt64
  product : String

/-- A customer with everything that belongs to them. -/
structure Transaction where
  customer : Customer
  billing : Billing
  orders : List OrderItem

/-- What the sources deliver. -/
inductive Record where
  | billing (record : Billing)
  | order (item : OrderItem)

/-- The customer with this id. -/
def Customer.ofId (id : UInt64) : Customer := ⟨id, "customer-" ++ toString id.toNat⟩

/-- What stands for billing a customer who has none. -/
def Billing.missing (customer : UInt64) : Billing := ⟨customer, "none"⟩

/-- The card of a customer. -/
def Billing.ofId (customer : UInt64) : Billing := ⟨customer, "card-" ++ toString customer.toNat⟩

/-- The orders of a customer. -/
def OrderItem.ofCustomer (customer : UInt64) : List OrderItem :=
  [⟨customer * 10 + 1, customer, "book"⟩, ⟨customer * 10 + 2, customer, "lamp"⟩]

/-- The customer a record belongs to. -/
def Record.customer : Record → UInt64
  | .billing record => record.customer
  | .order item => item.customer

/-- The source of billing records. -/
def billingSource (without : List UInt64) : Source UInt64 Record where
  reply _ ids :=
    { items := (ids.filter fun id => id ∉ without).map fun id => .ok (.billing (.ofId id)) }

/-- The source of ordered items. -/
def orderSource (without : List UInt64) : Source UInt64 Record where
  reply _ ids :=
    { items := (ids.filter fun id => id ∉ without).flatMap fun id =>
        (OrderItem.ofCustomer id).map fun item => .ok (.order item) }

/-- What is asked for. -/
structure Request where
  windows : List (List UInt64)
  withoutBilling : List UInt64 := []
  withoutOrders : List UInt64 := []
  /-- Whether each source stands behind a layer of its own. -/
  cached : Bool := false

/-- The transactions of all windows, and the calls of both sources. -/
structure Answer where
  transactions : List (Except Error Transaction)
  billingCalls : List (List UInt64)
  orderCalls : List (List UInt64)

/-- The path of a rule: its source, behind a layer or not. -/
def path (cached : Bool) (number : Nat) : Path UInt64 Record :=
  ⟨number, if cached then [⟨[], number⟩] else [], .source number number Record.customer⟩

/-- Both rules. A field is a list of records; that of the first rule has one. -/
def assembler (cached : Bool) : Assembler UInt64 Record (List Record) Customer Transaction where
  rules :=
    [{ path := path cached 0
       shape := .one (fun record => [record]) fun id => [.billing (.missing id)] },
     { path := path cached 1
       shape := .many [] fun before added => before ++ added }]
  key := Customer.id
  construct customer fields :=
    let records := fields.flatten
    { customer := customer
      billing := (records.findSome? fun
        | .billing record => some record
        | .order _ => none).getD (.missing customer.id)
      orders := records.filterMap fun
        | .billing _ => none
        | .order item => some item }

/-- The calls written down in one log, the earliest in front. -/
def callsOf (sys : System UInt64 Record) (bucket : Nat) : List (List UInt64) :=
  sys.log.reverse.filterMap fun line =>
    if line.bucket = bucket then
      match line.occurrence with
      | .sourceCalled ids => some ids
      | _ => none
    else none

/-- The customers one, two and three, so many times over. -/
def repeatedCustomers (times : Nat) : List UInt64 := (List.replicate times [1, 2, 3]).flatten

/-- Cuts a list into pieces of `size`, the last of which may be shorter. -/
def chunks {τ : Type} (size : Nat) : Nat → List τ → List (List τ)
  | 0, _ => []
  | _, [] => []
  | rounds + 1, x :: rest =>
    (x :: rest.take (size - 1)) :: chunks size rounds (rest.drop (size - 1))

/-- The windows of customers one, two and three, so many times over. -/
def repeatedWindows (times size : Nat) : List (List UInt64) :=
  chunks size (3 * times) (repeatedCustomers times)

/-- Assembles all windows, one after the other. Nothing here waits, so the answers are there at
once. -/
def answer (request : Request) : Answer :=
  let windows := request.windows.map fun ids => (0, ids.map Customer.ofId)
  let sys : System UInt64 Record :=
    { sources := .ofList default
        [billingSource request.withoutBilling, orderSource request.withoutOrders] }
  let collection : Collection UInt64 Record Customer Transaction :=
    { assembly := .start {} (.given (.ofTimes windows (some 0))), wanted := none }
  match collection.run (assembler request.cached) sys with
  | (.finished answers, sys) => ⟨answers.map (·.2), callsOf sys 0, callsOf sys 1⟩
  | (.waiting _, sys) => ⟨[], callsOf sys 0, callsOf sys 1⟩

end Collate.Simulation.Transactions
