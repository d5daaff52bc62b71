import Flatwire.Command
import Flatwire.Docs

/-! The command that prints the page of a schema file. -/

namespace Flatwire.Command

/-- A run that changes no file. -/
def only (tree : FileTree) (code : Nat) (stdout stderr : Bytes) : Outcome := ⟨some code, ⟨stdout, stderr⟩, tree⟩

def runDocs (tree : FileTree) (argv : List Bytes) : Outcome :=
  let fatal (message : Bytes) : Outcome := only tree 1 [] (message ++ "\n")
  match argv with
  | [] => fatal "usage: sbc-plugin-example SCHEMA_FILE"
  | path :: _ =>
    match tree.readFile path with
    | .error e => fatal ("ReadFile(" ++ Text.quote path ++ "): " ++ e.message)
    | .ok src =>
      match SchemaTree.parse src with
      | .error e => fatal ("Parse(" ++ Text.quote path ++ "): " ++ e.line)
      | .ok parsed =>
        let r := compile parsed (Path.stem path)
        let warnings : List Bytes := r.warnings.map fun w => "[WARN ] " ++ w.line
        let errors : List Bytes := r.errors.map fun e => "[ERROR] " ++ e.line
        match r.schema, r.fault with
        | _, some _ => { only tree 0 [] (Bytes.unlines warnings) with exit := none }
        | some s, none => only tree 0 (Docs.page s) (Bytes.unlines warnings)
        | none, none => only tree 1 [] (Bytes.unlines (warnings ++ errors))

end Flatwire.Command
