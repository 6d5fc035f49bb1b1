import Statechart.Expr.Basic
import Statechart.Expr.Symbol
import Statechart.Variable

/-!
Actions: statements and declarations in the order of the text. Blocks only group, so their
items stand among the others. Elaborating items gives the statements of the output and enters
the declared variables; a name that is declared under a label is written with the label's
owner in front.
-/

namespace Statechart.Action

/-- What is declared: a name, perhaps in parentheses, perhaps with dimensions. -/
inductive Declarator where
  | name (text : String)
  | group (inner : Declarator)
  | sized (base : Declarator) (opening : String) (size : Expr) (closing : String)
  | unsized (base : Declarator) (opening closing : String)
  deriving Repr, DecidableEq

inductive Initializer where
  | value (e : Expr)
  | braces (opening : String) (items : List Initializer) (closing : String)
  deriving Repr

structure Declared where
  declarator : Declarator
  init : Option Initializer
  deriving Repr

inductive Item where
  | statement (e : Expr)
  | declaration (type : VarType) (const : Bool) (declared : List Declared)
  deriving Repr

/-! ## Type words -/

/-- What the type words say so far. -/
inductive Kind where
  | unset
  | int
  | bool
  /-- A byte type that takes any further word. -/
  | small
  deriving Repr, DecidableEq

/-- The words that may stand beside an integer type. -/
def isModifier : TypeWord → Bool
  | .long | .short | .signed | .unsigned => true
  | _ => false

def Kind.ofWord : TypeWord → Kind
  | .bool => .bool
  | .char | .int8 => .small
  | _ => .int

/-- Joins one more type word. -/
def Kind.add (k : Kind) (w : TypeWord) : Except Fault Kind :=
  match k, w with
  | k, .const => .ok k
  | .unset, w => .ok (.ofWord w)
  | .int, w => if isModifier w then .ok .int else .error .typeWords
  | .bool, _ => .error .typeWords
  | .small, _ => .ok .small

/-- The type and constancy that type words spell, judged from the last word to the first;
`words` has them in that order. -/
def resolve (words : List TypeWord) : Except Fault (VarType × Bool) := do
  match ← words.foldlM Kind.add .unset with
  | .unset => throw .noTypeWord
  | .int => return (.int, words.contains .const)
  | .bool | .small => return (.byte, words.contains .const)

/-! ## Output -/

/-- The owner's name for `s`, if a variable has it. -/
def rename (owner : String) (vars : Variables) (s : String) : String :=
  if vars.contains (some (owner ++ s)) then owner ++ s else s

def Declarator.render (name : String → String) : Declarator → String
  | .name s => name s
  | .group d => "(" ++ d.render name ++ ")"
  | .sized d o e c => d.render name ++ o ++ e.render name ++ c
  | .unsized d o c => d.render name ++ o ++ c

mutual

def Initializer.render (name : String → String) : Initializer → String
  | .value e => e.render name
  | .braces o is c => o ++ Initializer.renderAll name is ++ c

/-- Initializers with commas between them. -/
def Initializer.renderAll (name : String → String) : List Initializer → String
  | [] => ""
  | [i] => i.render name
  | i :: is => i.render name ++ ", " ++ Initializer.renderAll name is

end

/-- The variables after a declaration. Names in it mean what they meant before it. -/
def declare (owner : String) (vars : Variables) (type : VarType) (const : Bool)
    (ds : List Declared) : Variables :=
  let name := rename owner vars
  vars.insertAll <| ds.map fun d =>
    (some (owner ++ d.declarator.render name),
     { type, const, init := d.init.map (·.render name), scope := .label })

/-- The statements of items and the variables after them. -/
def elaborate (owner : String) : Variables → List Item → List String × Variables
  | vars, [] => ([], vars)
  | vars, .statement e :: is =>
    let (ss, vars') := elaborate owner vars is
    (e.render (rename owner vars) :: ss, vars')
  | vars, .declaration type const ds :: is => elaborate owner (declare owner vars type const ds) is

end Statechart.Action
