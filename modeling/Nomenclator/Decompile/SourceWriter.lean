import Nomenclator.Archive

/-!
# The writer of source archives

An archive of sources starts with a manifest. Every file is preceded by entries for the
directories on the way to it that have not been added before.
-/

namespace Nomenclator.Decompile

/-- A source archive being written, with the number of its files and of their octets. -/
structure SourceWriter where
  builder : Archive.Builder := {}
  files : Nat := 0
  bytes : Nat := 0
  deriving DecidableEq

namespace SourceWriter

/-- The name of the manifest. -/
def manifestName : String := "META-INF/MANIFEST.MF"

/-- The text of the manifest. -/
def manifest : Bytes := Text.encodeUtf8 "Manifest-Version: 1.0\r\n\r\n".toList

/-- Writes a file. The flag says whether it could be appended. -/
def write (w : SourceWriter) (name : String) (data : Bytes) : Bool × SourceWriter :=
  match w.builder.addFile name data with
  | (true, builder) =>
    (true, { builder, files := w.files + 1, bytes := w.bytes + data.length })
  | (false, builder) => (false, { w with builder })

/-- Starts an archive, given the directories that count as added. -/
def start (dirs : SortedMap String Unit) : SourceWriter :=
  (({ builder := { dirs } } : SourceWriter).write manifestName manifest).2

end SourceWriter

end Nomenclator.Decompile
