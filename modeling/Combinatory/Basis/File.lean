import Combinatory.Basis.Document
import Combinatory.FileTree

/-!
# Bases in files

Saving and loading a basis, and where its file is by default.
-/

namespace Combinatory.Basis

/-- Saves a basis, making the directories above the file. The directories made stay when the others or the file cannot
be written. -/
def save (b : Basis) (path : String) (t : FileTree) : Except BasisError Unit × FileTree :=
  match t.makeParents path with
  | (false, t) => (.error .file, t)
  | (true, t) =>
    match t.write path b.toDocument with
    | none => (.error .file, t)
    | some t => (.ok (), t)

/-- Loads a basis. -/
def load (path : String) (t : FileTree) : Except BasisError Basis :=
  match t.read path with
  | none => .error .file
  | some document => ofDocument document

/-- The path of the file in the given environment: the variable for it, or else below the directory for
configuration. -/
def defaultPath (env : String → Option String) : String :=
  match env "HYCOMB_BASIS_PATH" with
  | some path => path
  | none =>
    let directory :=
      match env "XDG_CONFIG_HOME", env "HOME" with
      | some config, _ => joinPath "" config
      | none, some home => joinPath (joinPath "" home) ".config"
      | none, none => ""
    joinPath (joinPath directory "hycomb") "basis.toml"

end Combinatory.Basis
