import DiagramRegistry.Text.Blank

/-
# Locations

A diagram lives in one of three places: staging holds drafts, production holds what has been
promoted, and nested holds unversioned parts that other diagrams embed.
-/
namespace DiagramRegistry

/-- The stage at which a diagram is stored. -/
inductive Location where
  /-- Drafts, which may be edited. -/
  | staging
  /-- Promoted diagrams; product references lead here. -/
  | production
  /-- Unversioned parts; nested references lead here. -/
  | nested
deriving DecidableEq, Repr

namespace Location

/-- Every location, in their order. -/
def all : List Location := [staging, production, nested]

/-- The name of a location. -/
def name : Location → String
  | staging => "staging"
  | production => "production"
  | nested => "nested"

/-- The directory of a location below the root of a repository. -/
def directory : Location → String
  | staging => "staging"
  | production => "products"
  | nested => "nested"

/-- The position of a location in their order. -/
def rank : Location → Nat
  | staging => 0
  | production => 1
  | nested => 2

/-- The location that a folded text names; production also goes by its directory. -/
def ofFolded? (text : String) : Option Location :=
  if text = "staging" then some staging
  else if text = "production" ∨ text = "products" then some production
  else if text = "nested" then some nested
  else none

end Location

end DiagramRegistry
