import Nomenclator.SortedMap
import Nomenclator.Text.Blank
import Nomenclator.Text.Decimal
import Nomenclator.Toml.Reader

/-!
# Settings of decompile jobs

How many classes are decompiled at once, how many sources may wait to be written, and the
options that are handed to the decompiler with every class.
-/

namespace Nomenclator.Decompile

/-- The settings of a job. -/
structure Settings where
  threads : Nat
  queueCapacity : Nat := 64
  options : SortedMap String String :=
    .ofList [("renameillegalidents", "true"), ("trackbytecodeloc", "true")]
  deriving DecidableEq

/-- The greatest number of threads. -/
def maxThreads : Nat := 64

/-- The greatest capacity of a channel: it counts its free places in a word, but for three bits. -/
def channelLimit : Nat := (UInt64.size - 1) / 8

/-- What is wrong with settings. -/
inductive SettingsFault where
  | threadsOutOfRange (threads : Nat)
  | emptyQueue
  deriving DecidableEq, Repr

/-- The fault in words. -/
def SettingsFault.message : SettingsFault → String
  | .threadsOutOfRange threads => s!"threads ({threads}) must be within 1..={maxThreads}"
  | .emptyQueue => "writer_queue_capacity must be > 0"

/-- A number of threads brought into the range from one to the greatest. -/
def clampThreads (threads : Nat) : Nat := min (max threads 1) maxThreads

/-- Reads a number of threads. A text that is missing, blank or no number of 64 bits gives the
    default; in all cases the number is brought into the range. -/
def threadCount (raw : Option String) (default : Nat) : Nat :=
  let text := Text.trim (raw.getD "").toList
  match Text.readDecimal (UInt64.size - 1) text with
  | .ok threads => clampThreads threads
  | .error _ => clampThreads default

namespace Settings

/-- The settings with another option. -/
def withOption (s : Settings) (key value : String) : Settings :=
  { s with options := s.options.insert key value }

/-- Accepts one to `maxThreads` threads and a queue for at least one source. The queue may be
    larger than any channel. -/
def validate (s : Settings) : Except SettingsFault Unit :=
  if s.threads < 1 ∨ maxThreads < s.threads then .error (.threadsOutOfRange s.threads)
  else if s.queueCapacity = 0 then .error .emptyQueue
  else .ok ()

/-- The number in a value that must not be negative. -/
def size? : Toml.Value → Option Nat
  | .integer i => if 0 ≤ i then some i.toNat else none
  | _ => none

/-- The key under which a moment stands where a table is asked for. -/
def momentKey : String := "$__toml_private_datetime"

/-- The texts in a table. A moment counts as a table with its canonical text. -/
def options? : Toml.Value → Option (SortedMap String String)
  | .moment m => some (.ofList [(momentKey, m.text)])
  | .table _ entries =>
    (entries.mapM fun (e : String × Toml.Value) =>
      match e.2 with
      | .text s => some (e.1, s)
      | _ => none).map SortedMap.ofList
  | _ => none

/-- Takes one entry of a configuration document; keys that mean nothing are skipped. -/
def setEntry (s : Settings) (entry : String × Toml.Value) : Option Settings :=
  match entry with
  | ("threads", value) => (size? value).map fun threads => { s with threads }
  | ("writer_queue_capacity", value) =>
    (size? value).map fun queueCapacity => { s with queueCapacity }
  | ("backend_options", value) => (options? value).map fun options => { s with options }
  | _ => some s

/-- Reads settings from a configuration document; what it leaves out has its default. -/
def ofToml? (defaults : Settings) (text : String) : Option Settings := do
  let entries ← Toml.read text
  entries.foldlM setEntry defaults

end Settings

end Nomenclator.Decompile
