import Statechart.Label.Basic

/-!
Planar charts: the hierarchy is gone, what is left are leaf states, transitions between them
and variables. Two states of their own, `start` and `error`, stand for the time before the
first transition and for a default transition that is missing.
-/

namespace Statechart

structure PlanarState where
  /-- The names of the enclosing states and its own. -/
  longName : String
  label : StateLabel
  /-- The identifiers of the enclosing states, innermost first. -/
  parents : List (Option String)
  deriving Repr, DecidableEq

structure PlanarTransition where
  /-- The transition that this one was made from. -/
  ssid : Option String
  source : Option String
  target : Option String
  conditions : List String
  actions : List String
  /-- How deep the source lies; the outermost goes first. -/
  level : Int
  /-- Initial, outer or inner, in this order. -/
  rank : Int
  order : Int
  deriving Repr, DecidableEq

structure PlanarChart where
  id : Option String
  name : Option String
  states : Table (Option String) PlanarState
  transitions : List PlanarTransition
  vars : Variables
  deriving Repr, DecidableEq

/-- The condition that never holds. -/
def never : String := "false"

/-- The negation of one condition; no condition is true. -/
def negateOne (c : String) : String := if c == "" then never else "not (" ++ c ++ ")"

/-- The negation of a conjunction. -/
def negate (conditions : List String) : String :=
  if conditions.isEmpty then never else " or ".intercalate (conditions.map negateOne)

/-- `t` comes before `u`: by level, then by rank, then by order. -/
def PlanarTransition.before (t u : PlanarTransition) : Bool :=
  t.level < u.level || (t.level == u.level && (t.rank < u.rank ||
    (t.rank == u.rank && t.order < u.order)))

end Statechart
