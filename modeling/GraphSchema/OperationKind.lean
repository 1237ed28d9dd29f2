/-
The kinds of operations, each with its own root type.

Their order is the one in which roots are written, and their names are those of the root
types that need not be declared.
-/
namespace GraphSchema

/-- What an operation asks of a service, which decides the type it starts from. -/
inductive OperationKind where
  | query | mutation | subscription
  deriving DecidableEq, Repr

namespace OperationKind

/-- Every kind, in the order in which the roots are looked at. -/
def all : List OperationKind := [query, mutation, subscription]

theorem mem_all (operation : OperationKind) : operation ∈ all := by
  cases operation <;> decide

/-- The name of the kind, which is also the name of its root type unless a schema block
says otherwise. -/
def name : OperationKind → String
  | query => "Query"
  | mutation => "Mutation"
  | subscription => "Subscription"

/-- The word for the kind in documents. -/
def keyword : OperationKind → String
  | query => "query"
  | mutation => "mutation"
  | subscription => "subscription"

end OperationKind

end GraphSchema
