import Nomenclator.Access.Document
import Nomenclator.Digest
import Nomenclator.Files.Operation
import Nomenclator.LineTable
import Nomenclator.Naming.Catalog

/-!
# Documents in files

Naming documents, access documents and line tables are read from files as texts. Access
documents and line tables are written to a temporary file next to their place, which then
takes that place, so no reader sees half a document.
-/

namespace Nomenclator

open Files (Path FileTree IoFault)

/-- Why a document could not be read from a file: the file, or what it holds. -/
inductive LoadError (ε : Type) where
  | io (path : Path) (fault : IoFault)
  | content (error : ε)
  deriving DecidableEq, Repr

/-- Reads a file and makes something of its text. -/
def loadWith {ε α : Type} (parse : String → Except ε α) (t : FileTree) (p : Path) :
    Except (LoadError ε) α :=
  match t.readText p with
  | .error fault => .error (.io p fault)
  | .ok text => (parse text).mapError .content

/-- The temporary file of a path. -/
def temporaryPath (p : Path) : Path := p.withExtension "tmp"

/-- The naming document in a file. -/
def Naming.Catalog.loadFile : FileTree → Path → Except (LoadError Naming.Error) Naming.Catalog :=
  loadWith Naming.Catalog.load

/-- The access document in a file. -/
def Access.loadFile : FileTree → Path → Except (LoadError Access.Error) Access.Overrides :=
  loadWith Access.parse

/-- Writes an access document. Failures name the path of the document. -/
def Access.saveFile (t : FileTree) (p : Path) (o : Access.Overrides) :
    Except (Path × IoFault) Unit × FileTree :=
  match t.writeText (temporaryPath p) (Access.render o) with
  | .error fault => (.error (p, fault), t)
  | .ok t =>
    match t.rename (temporaryPath p) p with
    | .error fault => (.error (p, fault), t)
    | .ok t => (.ok (), t)

/-- The line table in a file. -/
def LineTable.loadFile : FileTree → Path → Except (LoadError LineTable.Error) LineTable :=
  loadWith LineTable.parse

/-- Writes a line table, and creates the directory it lies in. Failures name the directory,
    the temporary file or the file. -/
def LineTable.saveFile (t : FileTree) (p : Path) (table : LineTable) :
    Except (Path × IoFault) Unit × FileTree :=
  let (made, t) := match p.parent? with
    | some parent =>
      let (result, t) := t.createDirAll parent
      (result.mapError fun fault => (parent, fault), t)
    | none => (.ok (), t)
  match made with
  | .error e => (.error e, t)
  | .ok () =>
    match t.writeText (temporaryPath p) table.render with
    | .error fault => (.error (temporaryPath p, fault), t)
    | .ok t =>
      match t.rename (temporaryPath p) p with
      | .error fault => (.error (p, fault), t)
      | .ok t => (.ok (), t)

/-- The digest of the file at a path. -/
def fileDigest (t : FileTree) (p : Path) : Except (Path × IoFault) String :=
  match t.readBytes p with
  | .ok bytes => .ok (Digest.fingerprint bytes)
  | .error fault => .error (p, fault)

end Nomenclator
