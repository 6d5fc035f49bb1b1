/-!
What can go wrong, by cause. `Fault.message?` holds the wording of those that have one.
-/

namespace Statechart

/-- How an absent text is worded. -/
def absent : String := "None"

/-- The text, or the wording of its absence. -/
def worded (s : Option String) : String := s.getD absent

/-- Features of a chart that have no counterpart in the output. -/
inductive Unsupported where
  | events
  | junctions
  | andStates
  | functions
  | stateType (type : Option String)
  | bindActions
  | eventActions
  | transitionEvents
  | bareConditionAction
  | variableType (type : Option String)
  | variableScope (scope : Option String)
  deriving Repr, DecidableEq

def Unsupported.message : Unsupported → String
  | events => "events"
  | junctions => "junctions"
  | andStates => "and decomposition of states"
  | functions => "functions"
  | stateType t => "state of type " ++ worded t
  | bindActions => "\"bind\" actions"
  | eventActions => "\"on event\" actions"
  | transitionEvents => "events in transition labels"
  | bareConditionAction => "Condition actions must be enclosed in curly brackets."
  | variableType t => "variables of type " ++ worded t
  | variableScope s => "variables of scope " ++ worded s

/-- Documents that are no chart model. -/
inductive Invalid where
  | unreadable
  | notStateflow
  | machines
  | actionLanguage
  | unlabelledState
  deriving Repr, DecidableEq

def Invalid.message : Invalid → String
  | unreadable => "failed to parse XML"
  | notStateflow => "not recognized as Stateflow"
  | machines => "invalid number of machines"
  | actionLanguage => "invalid action language"
  | unlabelledState => "state without label"

inductive Fault where
  /-- No token starts at this rest of a text. -/
  | unknownText (rest : String)
  /-- A token of this kind cannot stand where it was found. -/
  | unexpected (line : Nat) (kind : String)
  /-- The text ends too early. -/
  | unfinished
  /-- The type words of a declaration do not go together. -/
  | typeWords
  /-- A declaration names no type. -/
  | noTypeWord
  /-- A plus sign in front of an operand. -/
  | unaryPlus
  /-- A comma in front of a closing brace. -/
  | danglingComma
  /-- Action text without anything in it. -/
  | blankAction
  | unsupported (what : Unsupported)
  | invalid (what : Invalid)
  /-- A document that is not well formed. -/
  | illFormed
  /-- A state that the chart does not have. -/
  | unknownState (ssid : Option String)
  /-- A path expression that can not be read. -/
  | badPath
  /-- A mark where a step of a path expression has to be. -/
  | strayMark (text : String)
  /-- A name in a path expression that nothing can have. -/
  | impossibleName
  /-- Default transitions that lead back to where they start. -/
  | endless
  /-- An element that is not there. -/
  | missingElement
  /-- A text that is not there. -/
  | missingText
  /-- A text that spells no whole number. -/
  | notANumber
  /-- A row of values that is too short. -/
  | missingValue
  /-- A line that does not have the expected form. -/
  | malformedLine
  | divisionByZero
  deriving Repr, DecidableEq

/-- The wording of a fault, where it has one. -/
def Fault.message? : Fault → Option String
  | unknownText rest => some ("Unknown text '" ++ rest ++ "'")
  | unexpected line kind => some ("Syntax error, line " ++ toString line ++ ": " ++ kind)
  | unfinished => some "Unknown error"
  | typeWords => some "Error in declaration specifiers"
  | unsupported u => some u.message
  | invalid i => some i.message
  | unknownState ssid => ssid
  | strayMark text => some text
  | _ => none

end Statechart
