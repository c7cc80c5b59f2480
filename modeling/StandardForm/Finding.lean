import StandardForm.Category
import StandardForm.Datum.Basic

/-!
# Findings

What a construction repaired rather than refused is recorded as a finding. Findings are kept
in the order in which they were recorded.
-/

namespace StandardForm

/-- Something that a construction repaired: its kind, a message and named details. -/
structure Finding where
  category : Category
  message : String
  context : List (String × Datum)

/-- What no detail of a finding may be called. -/
def Finding.reservedNames : List String := ["self", "category", "message"]

/-- Findings in the order in which they were recorded. -/
abbrev Findings := List Finding

namespace Findings

def record (fs : Findings) (finding : Finding) : Findings := fs ++ [finding]

def messages (fs : Findings) : List String := fs.map Finding.message

def ofCategory (fs : Findings) (category : Category) : Findings :=
  fs.filter (·.category.refines category)

end Findings

/-- The text that reports an exchange of bounds. -/
def boundsSwappedMessage : String := "swap the elements where u < d, to make sure u > d"

def Finding.boundsSwapped (indices : List Nat) : Finding where
  category := .boundOrder
  message := boundsSwappedMessage
  context := [("indices", .list (indices.map fun (i : Nat) => .integer i))]

end StandardForm
