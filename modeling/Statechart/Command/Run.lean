import Statechart.Command.Arguments
import Statechart.Compile
import Statechart.Text.Search

/-!
The whole command: arguments, files and standard input to an ending, standard output and files.
-/

namespace Statechart.Command

inductive Ending where
  /-- The command is done, with a report on standard error. -/
  | done (code : Nat) (report : String)
  /-- The command line asked for help or was wrong. -/
  | usage (code : Nat)
  | failed (fault : Fault)
  deriving Repr, DecidableEq

structure Outcome where
  ending : Ending
  output : String
  files : Files

/-- The member of an archive that holds the model. -/
def modelMember : String := "simulink/blockdiagram.xml"

/-- The document in a file. Of members with one name the last counts. -/
def document? : Content → Option ByteArray
  | .bytes data => some data
  | .archive members => (members.reverse.find? (·.name == modelMember)).map (·.data)

/-- The output that goes with an input: its last suffix, if any, gives way to another. -/
def defaultOutput (name : String) : String :=
  String.ofList ((Text.beforeLast? ['.'] name.toList).getD name.toList) ++ ".dve"

/-- Why a text is no interval. -/
inductive IntervalFault where
  | count
  | numbers
  | order
  deriving Repr, DecidableEq

def IntervalFault.message : IntervalFault → String
  | count => "Incorrect format of the interval: too many numbers\n"
  | numbers => "Incorrect format of the interval: numbers not recognized\n"
  | order => "Incorrect format of the interval: the first number must be lower then the second\n"

/-- Two whole numbers with a comma between them, the first not above the second. -/
def readInterval (s : String) : Except IntervalFault (Int × Int) :=
  match s.toList.splitOn ',' with
  | [lo, hi] =>
    match Text.readInt (String.ofList lo), Text.readInt (String.ofList hi) with
    | some lo, some hi => if hi < lo then .error .order else .ok (lo, hi)
    | _, _ => .error .numbers
  | _ => .error .count

/-- The interval that is fed if none is given. -/
def defaultInterval : Int × Int := (0, 7)

/-- The options of the writer. Without fed inputs nothing alternates. -/
def optionsOf (s : Settings) : Except IntervalFault Dve.Options := do
  let inputs ← match s.interval with
    | some text => some <$> readInterval text
    | none => pure (if s.feed then some defaultInterval else none)
  return ⟨s.names, inputs, s.alternate && inputs.isSome⟩

/-- The ending after a document was compiled. -/
def endingOf : Option Fault → Ending
  | none => .done 0 ""
  | some (.unsupported u) => .done 1 ("Following is not supported: " ++ u.message ++ "\n")
  | some (.invalid i) => .done 1 ("Input is not valid stateflow: " ++ i.message ++ "\n")
  | some f => .failed f

/-- The channel of the output, and the files with it. -/
def openOutput (files : Files) (s : Settings) (source : Source) :
    Except String (Channel × Files) :=
  match s.output with
  | some channel => .ok (channel, files)
  | none =>
    let name := defaultOutput source.name
    match files.openToWrite name with
    | .ok (path, files) => .ok (.file path, files)
    | .error f => .error ("Can't open output file: " ++ f.message name ++ "\n")

/-- What an input holds, where `standard` is the file behind standard input. -/
def contentOf (files : Files) (standard : Option Path) : Channel → Content
  | .file path => files.content path
  | .standard => (standard.map files.content).getD (.bytes ByteArray.empty)

/-- The outcome after `text` was written to a channel. -/
def deliver (files : Files) (channel : Channel) (text : String) (ending : Ending) : Outcome :=
  match channel with
  | .standard => ⟨ending, text, files⟩
  | .file path => ⟨ending, "", files.write path text⟩

/-- The command after its arguments were read. The output is opened before the input is read,
so a command that has one file as both finds nothing in it. -/
def execute (read : Xml.DocumentReader) (files : Files) (standard : Option Path) (s : Settings)
    (source : Source) : Outcome :=
  match openOutput files s source with
  | .error report => ⟨.done 1 report, "", files⟩
  | .ok (channel, files) =>
    match document? (contentOf files standard source.channel), optionsOf s with
    | none, _ =>
      ⟨.done 1 "Couldn't find Stateflow XML file in given archive.\n", "", files⟩
    | some _, .error f => ⟨.done 1 f.message, "", files⟩
    | some bytes, .ok opts =>
      let out := compile read opts bytes
      deliver files channel out.text (endingOf out.fault)

/-- The input that a command line names, or its early exit, and how far it was read. -/
def readArguments (files : Files) (args : List String) : Except Exit Source × Progress :=
  (takeAll args).run.run ⟨files, .initial, false⟩

/-- Whether a command line asks for standard input. -/
def readsStandard (files : Files) (args : List String) : Bool :=
  match (readArguments files args).1 with
  | .ok source => source.channel == .standard
  | .error _ => false

/-- Runs the command. -/
def run (read : Xml.DocumentReader) (files : Files) (standard : Option Path)
    (args : List String) : Outcome :=
  let (taken, progress) := readArguments files args
  match taken with
  | .error exit => ⟨.usage exit.code, "", progress.files⟩
  | .ok source => execute read progress.files standard progress.settings source

end Statechart.Command
