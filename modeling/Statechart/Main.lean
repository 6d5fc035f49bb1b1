import Statechart.Archive.Zip
import Statechart.Command.Run
import Statechart.Xml.Document

/-!
The command on real files. Everything that the arguments may name is loaded first; the files
that the run changes are written back.
-/

namespace Statechart.Main

open Command

/-- What bytes hold: the members of an archive, or just themselves. -/
def contentOfBytes (data : ByteArray) : Content :=
  match Archive.members? data with
  | some members => .archive members
  | none => .bytes data

/-- The entry at a path, if something is there. -/
def loadEntry (name : String) : IO (Option Entry) := do
  try
    return some (.file (contentOfBytes (← IO.FS.readBinFile name)))
  catch
    | .inappropriateType _ code _ =>
      return if code.toNat = OpenFault.isDirectory.number then some .directory else none
    | _ => return none

/-- The paths on the way along names. -/
def waypoints (p : Path) : List String → List Path
  | [] => []
  | name :: names => Files.enter p name :: waypoints (Files.enter p name) names

/-- Loads what lies on the way to a name. -/
def load (files : Files) (name : String) : IO Files :=
  (waypoints (Files.origin name).1 (Files.origin name).2).foldlM (fun files p => do
    if p.isEmpty || files.contains p then return files
    match ← loadEntry ("/".intercalate p) with
    | some entry => return files.insert p entry
    | none => return files) files

/-- The place of standard input, which no name leads to. -/
def standardPath : Path := [""]

/-- Everything that a command line may name. -/
def loadAll (args : List String) : IO Files := do
  let files ← (args ++ args.map defaultOutput).foldlM load .empty
  if readsStandard files args then
    let data ← (← IO.getStdin).readBinToEnd
    return files.insert standardPath (.file (contentOfBytes data))
  else return files

def usage : String :=
  "usage: [-h] [-n id|hierarchical|name] [-f] [-i INTERVAL] [-a] input [output]\n"

/-- Writes what a run changed and tells how it ended. -/
def finish (files : Files) (out : Outcome) : IO UInt32 := do
  for (name, content) in files.changes out.files do
    if let .bytes data := content then IO.FS.writeBinFile name data
  (← IO.getStdout).putStr out.output
  let errors ← IO.getStderr
  match out.ending with
  | .done code report => errors.putStr report; return code.toUInt32
  | .usage 0 => (← IO.getStdout).putStr usage; return 0
  | .usage code => errors.putStr usage; return code.toUInt32
  | .failed f => errors.putStr ((f.message?.getD "failed") ++ "\n"); return 1

end Statechart.Main

def main (args : List String) : IO UInt32 := do
  let files ← Statechart.Main.loadAll args
  Statechart.Main.finish files
    (Statechart.Command.run Statechart.Xml.read files (some Statechart.Main.standardPath) args)
