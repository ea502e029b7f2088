import Nomenclator.Remap.Sidecar
import Nomenclator.Proofs.Files.Suffix
import Nomenclator.Proofs.Json

/-! # Sidecars — what is written, and where it stands

    The text of a sidecar is read back as the sidecar (`parse?_render`).  It stands beside
    its output, and so does the file as which it is written first. -/

namespace Nomenclator.Remap.Sidecar

open Files (Path FileTree)
open Json (octets quote quoteList readValue readEntries skipBlanks)

-- ── Text ─────────────────────────────────────────────────────────────────────

theorem octets_renderEntry (key value : String) :
    octets (renderEntry key value).toList
      = ' ' :: ' ' :: (octets (quote key).toList ++ ':' :: ' ' :: octets value.toList) := by
  have hindent : octets "  ".toList = [' ', ' '] := Json.octets_ascii [' ', ' '] (by decide)
  have hcolon : octets ": ".toList = [':', ' '] := Json.octets_ascii [':', ' '] (by decide)
  simp only [renderEntry, String.toList_append, Json.octets_append, hindent, hcolon,
    List.append_assoc, List.cons_append, List.nil_append]

/-- The text of a sidecar, line by line. -/
theorem octets_render (s : Sidecar) :
    octets s.render.toList
      = '\x7b' :: '\n' :: (octets (renderEntry "rewriter" (quote s.tool)).toList
        ++ ',' :: '\n' :: (octets (renderEntry "input_sha256" (quote s.inputDigest)).toList
        ++ ',' :: '\n' :: (octets (renderEntry "layers" (quoteList "  " s.layers)).toList
        ++ ',' :: '\n' :: (octets (renderEntry "flags" (quoteList "  " s.flags)).toList
        ++ ',' :: '\n' :: (octets (renderEntry "written_at_unix_ms"
            (toString s.writtenAt.toNat)).toList
        ++ ['\n', '\x7d']))))) := by
  have hopen : octets "\x7b\n".toList = ['\x7b', '\n'] := Json.octets_ascii ['\x7b', '\n'] (by decide)
  have hnext : octets ",\n".toList = [',', '\n'] := Json.octets_ascii [',', '\n'] (by decide)
  have hclose : octets "\n\x7d".toList = ['\n', '\x7d'] :=
    Json.octets_ascii ['\n', '\x7d'] (by decide)
  simp only [render, String.intercalate_cons_cons, String.intercalate_singleton,
    String.toList_append, Json.octets_append, hopen, hnext, hclose, List.append_assoc,
    List.cons_append, List.nil_append]

theorem skipBlanks_renderEntry (key value : String) (rest : List Char) :
    skipBlanks ('\n' :: (octets (renderEntry key value).toList ++ rest))
      = octets (quote key).toList ++ ':' :: ' ' :: (octets value.toList ++ rest) := by
  simp only [octets_renderEntry, List.cons_append, List.append_assoc, Json.octets_quote]
  rfl

theorem octets_toString (n : Nat) : octets (toString n).toList = Text.decimal n := by
  have hdigits : (toString n).toList = Text.decimal n := Nat.toList_repr
  rw [hdigits]
  refine Json.octets_ascii _ (List.all_eq_true.2 fun c hc => decide_eq_true ?_)
  have hc := Text.isDigit_of_mem_decimal hc
  simp only [Char.isDigit, Bool.and_eq_true, decide_eq_true_eq] at hc
  exact Nat.lt_of_le_of_lt (UInt32.le_iff_toNat_le.1 hc.2) (by decide)

/-- The entries of a sidecar's text. -/
def entries (s : Sidecar) : List (Option String × Json.Value) :=
  [(some "rewriter", .string (some s.tool)),
    (some "input_sha256", .string (some s.inputDigest)),
    (some "layers", .array (s.layers.map fun layer => .string (some layer))),
    (some "flags", .array (s.flags.map fun flag => .string (some flag))),
    (some "written_at_unix_ms", .natural s.writtenAt.toNat)]

theorem ofJson?_entries (s : Sidecar) : ofJson? (.object s.entries) = some s := by
  have htool : valueOf? s.entries "rewriter" = some (.string (some s.tool)) := rfl
  have hdigest : valueOf? s.entries "input_sha256" = some (.string (some s.inputDigest)) := rfl
  have hlayers : valueOf? s.entries "layers"
      = some (.array (s.layers.map fun layer => .string (some layer))) := rfl
  have hflags : valueOf? s.entries "flags"
      = some (.array (s.flags.map fun flag => .string (some flag))) := rfl
  have htime : timeIn? s.entries = some s.writtenAt := by
    have hvalues : valuesOf s.entries "written_at_unix_ms" = [.natural s.writtenAt.toNat] := rfl
    rw [timeIn?, hvalues]
    dsimp only
    rw [Json.Value.word?, if_pos s.writtenAt.toNat_lt, UInt64.ofNat_toNat]
  have hkeys : s.entries.any (fun e => e.1.isNone) = false := rfl
  rw [ofJson?, hkeys, htool, hdigest, hlayers, hflags, htime]
  simp only [Option.bind_eq_bind, Option.bind_some, Json.texts?_map_string, Json.Value.text?]
  rfl

variable {fuel : Nat} {rest later : List Char} {value : String} {v : Json.Value}

/-- A line with another after it. -/
theorem readEntries_renderEntry (key : String) {entries : List (Option String × Json.Value)}
    (hvalue : readValue fuel (' ' :: (octets value.toList ++ ',' :: later)) = some (v, ',' :: later))
    (hlater : readEntries fuel later = some (entries, rest)) :
    readEntries (fuel + 1) ('\n' :: (octets (renderEntry key value).toList ++ ',' :: later))
      = some ((some key, v) :: entries, rest) :=
  Json.readEntries_cons (skipBlanks_renderEntry key value _) hvalue rfl hlater

/-- The last line. -/
theorem readEntries_renderEntry_last (key : String)
    (hvalue : readValue fuel (' ' :: (octets value.toList ++ ['\n', '\x7d']))
      = some (v, ['\n', '\x7d'])) :
    readEntries (fuel + 1) ('\n' :: (octets (renderEntry key value).toList ++ ['\n', '\x7d']))
      = some ([(some key, v)], []) :=
  Json.readEntries_last (skipBlanks_renderEntry key value _) hvalue rfl

theorem readValue_quote (s : String) :
    readValue (fuel + 1) (' ' :: (octets (quote s).toList ++ rest))
      = some (.string (some s), rest) := by
  refine Json.readValue_quote ?_
  rw [Json.octets_quote]
  rfl

theorem readValue_quoteList {texts : List String} (hfuel : texts.length + 2 ≤ fuel) :
    readValue fuel (' ' :: (octets (quoteList "  " texts).toList ++ rest))
      = some (.array (texts.map fun s => .string (some s)), rest) :=
  have hindent : ∀ c ∈ "  ".toList, c = ' ' := by simp
  Json.readValue_quoteList hindent hfuel (Json.skipBlanks_quoteList "  " texts rest)

theorem readValue_toString (n : Nat) :
    readValue (fuel + 1) (' ' :: (octets (toString n).toList ++ ['\n', '\x7d']))
      = some (.natural n, ['\n', '\x7d']) := by
  rw [octets_toString]
  exact Json.readValue_decimal (Json.skipBlanks_decimal n _)

/-- The text of a sidecar is read as its entries. -/
theorem readValue_render (s : Sidecar) (hlayers : s.layers.length + 2 ≤ fuel)
    (hflags : s.flags.length + 2 ≤ fuel) :
    readValue (fuel + 6) (octets s.render.toList) = some (.object s.entries, []) := by
  obtain ⟨fuel, rfl⟩ : ∃ less, fuel = less + 1 := ⟨fuel - 1, by omega⟩
  have hopen : ∀ later, skipBlanks ('\x7b' :: later) = '\x7b' :: later := fun _ => rfl
  have hfirst : ∀ key value rest, ∃ after,
      skipBlanks ('\n' :: (octets (renderEntry key value).toList ++ rest)) = '"' :: after :=
    fun key value rest => ⟨_, (skipBlanks_renderEntry key value rest).trans (Json.octets_quote _ _)⟩
  rw [octets_render, Json.readValue_object (hopen _) (hfirst _ _ _).choose_spec,
    readEntries_renderEntry "rewriter" (readValue_quote s.tool)
      (readEntries_renderEntry "input_sha256" (readValue_quote s.inputDigest)
        (readEntries_renderEntry "layers" (readValue_quoteList (by omega))
          (readEntries_renderEntry "flags" (readValue_quoteList (by omega))
            (readEntries_renderEntry_last "written_at_unix_ms"
              (readValue_toString s.writtenAt.toNat)))))]
  rfl

theorem read_render (s : Sidecar) :
    Json.read (Text.encodeUtf8 s.render.toList) = some (.object s.entries) := by
  -- every item of a list has a line of its own, so the length of the text is enough to nest
  have hlength : s.layers.length + s.flags.length + 8 ≤ s.render.length := by
    have hlayers := Json.length_le_quoteList "  " s.layers
    have hflags := Json.length_le_quoteList "  " s.flags
    have hnext : ",\n".length = 2 := by decide
    simp only [render, renderEntry, String.intercalate_cons_cons, String.length_append, hnext]
    omega
  have hoctets : s.render.length ≤ (octets s.render.toList).length :=
    Json.length_le_octets s.render.toList
  obtain ⟨fuel, hfuel⟩ : ∃ fuel, 2 * (octets s.render.toList).length + 2 = fuel + 6 :=
    ⟨2 * (octets s.render.toList).length - 4, by omega⟩
  refine Json.read_encodeUtf8 ?_
  rw [hfuel]
  exact readValue_render s (by omega) (by omega)

/-- **The text of a sidecar is read back.** -/
theorem parse?_render (s : Sidecar) : parse? (Text.encodeUtf8 s.render.toList) = some s := by
  rw [parse?, read_render, Option.bind_some, ofJson?_entries]

-- ── Places ───────────────────────────────────────────────────────────────────

theorem temporaryPathOf_eq (output : Path) :
    temporaryPathOf output = output.append ".remap.json.tmp" := by
  have hsuffix : Path.Suffix (".remap" ++ "." ++ "json") := by decide
  have hsidecar : ".remap.json" = ".remap" ++ "." ++ "json" := by decide
  have htemporary : ".remap.json.tmp" = ".remap" ++ "." ++ "json.tmp" := by decide
  rw [temporaryPathOf, pathOf, hsidecar, htemporary]
  exact Path.withExtension_append output "json.tmp" hsuffix (by decide) (by decide)

/-- The sidecar of an output stands beside it, and so does the file as which it is written
    first. -/
theorem places {output : Path} (h : output.NamesFile) :
    ∃ dir name, output.place = dir ++ [.ofText name]
      ∧ (pathOf output).place = dir ++ [.ofText (name ++ ".remap.json")]
      ∧ (temporaryPathOf output).place = dir ++ [.ofText (name ++ ".remap.json.tmp")] := by
  obtain ⟨dir, name, hplace, happend⟩ := h.place_append
  refine ⟨dir, name, hplace, happend (by decide), ?_⟩
  rw [temporaryPathOf_eq]
  exact happend (by decide)

theorem endsInSlash_pathOf (output : Path) : (pathOf output).endsInSlash = false :=
  Path.Suffix.endsInSlash (by decide) output

theorem endsInSlash_temporaryPathOf (output : Path) :
    (temporaryPathOf output).endsInSlash = false := by
  rw [temporaryPathOf_eq]
  exact Path.Suffix.endsInSlash (by decide) output

/-- Only one output has its sidecar at a place. -/
theorem place_eq_of_pathOf {p q : Path} (hp : p.NamesFile) (hq : q.NamesFile)
    (h : (pathOf p).place = (pathOf q).place) : p.place = q.place := by
  obtain ⟨dir, name, hplace, hsidecar, -⟩ := places hp
  obtain ⟨dir', name', hplace', hsidecar', -⟩ := places hq
  rw [hsidecar, hsidecar'] at h
  obtain ⟨hdir, hlast⟩ := Files.Name.concat_ofText_inj h
  have hname := congrArg String.toList hlast
  rw [String.toList_append, String.toList_append, List.append_left_inj, String.toList_inj] at hname
  rw [hplace, hplace', hdir, hname]

theorem place_pathOf_congr {p q : Path} (hp : p.NamesFile) (hq : q.NamesFile)
    (h : p.place = q.place) : (pathOf p).place = (pathOf q).place := by
  obtain ⟨dir, name, hplace, hsidecar, -⟩ := places hp
  obtain ⟨dir', name', hplace', hsidecar', -⟩ := places hq
  rw [hplace, hplace'] at h
  obtain ⟨hdir, hname⟩ := Files.Name.concat_ofText_inj h
  rw [hsidecar, hsidecar', hdir, hname]

/-- No sidecar stands where one is written first. -/
theorem place_temporary_ne {p q : Path} (hp : p.NamesFile) (hq : q.NamesFile) :
    (temporaryPathOf p).place ≠ (pathOf q).place := by
  obtain ⟨dir, name, -, -, htemporary⟩ := places hp
  obtain ⟨dir', name', -, hsidecar, -⟩ := places hq
  rw [htemporary, hsidecar]
  intro heq
  obtain ⟨-, hlast⟩ := Files.Name.concat_ofText_inj heq
  have hend := congrArg (·.toList.getLast?) hlast
  simp only [String.toList_append] at hend
  rw [List.getLast?_append_of_ne_nil _ (by decide), List.getLast?_append_of_ne_nil _ (by decide)]
    at hend
  exact absurd hend (by decide)

-- ── Saving ───────────────────────────────────────────────────────────────────

/-- The content of the file that a sidecar is written to. -/
def file (s : Sidecar) : Files.Content := .raw (Text.encodeUtf8 s.render.toList)

/-- What saving a sidecar does to a plain tree. -/
structure Saved (t : FileTree) (output : Path) (s : Sidecar)
    (out : Except (Path × Files.IoFault) Unit × FileTree) : Prop where
  keeping : t.Keeping out.2
  elsewhere : ∀ loc, loc ≠ (temporaryPathOf output).place → loc ≠ (pathOf output).place →
    out.2.at? loc = t.at? loc
  found : out.1 = .ok () → out.2.stat (pathOf output) = .ok (.file s.file)

theorem saved_save {t : FileTree} (h : t.Plain) {output : Path} (hname : output.NamesFile)
    (s : Sidecar) : Saved t output s (save t output s) := by
  rw [save]
  cases hwrite : t.writeText (temporaryPathOf output) s.render with
  | error f => exact ⟨h.keeping, fun _ _ _ => rfl, fun h => nomatch h⟩
  | ok u =>
      obtain ⟨hkeeping, hat⟩ := h.write hwrite
      dsimp only
      cases hrename : u.rename (temporaryPathOf output) (pathOf output) with
      | error f =>
          refine ⟨hkeeping, fun loc htemporary _ => ?_, fun h => nomatch h⟩
          rw [hat, if_neg htemporary]
      | ok v =>
          have hfile : u.at? (temporaryPathOf output).place = some (.file s.file) := by
            rw [hat, if_pos rfl]
            rfl
          obtain ⟨hkeeping', hat'⟩ := hkeeping.plain.rename (endsInSlash_temporaryPathOf output)
            (endsInSlash_pathOf output) (place_temporary_ne hname hname) hfile hrename
          refine ⟨hkeeping.trans hkeeping', fun loc htemporary hsidecar => ?_, fun _ => ?_⟩
          · rw [hat', if_neg hsidecar, if_neg htemporary, hat, if_neg htemporary]
          · -- the sidecar could be looked up before it was there
            obtain ⟨_, dst, _, htests, -⟩ := Files.FileTree.rename_inv hrename
            obtain ⟨_, hlook⟩ := htests.there
            obtain rfl := (hkeeping.plain.entryAt_eq_ok htests.destAt).2 (endsInSlash_pathOf output)
            have hlook' : v.lookUp (pathOf output).place = .ok (some (.file s.file)) := by
              rw [Files.FileTree.lookUp_of_lookUp hlook, hat', if_pos rfl]
            exact hkeeping'.plain.stat_of_entryAt
              (hkeeping.plain.entryAt_keeps hkeeping' htests.destAt) (endsInSlash_pathOf output) hlook'

theorem Saved.written {t : FileTree} {output : Path} {s : Sidecar}
    {out : Except (Path × Files.IoFault) Unit × FileTree} (h : Saved t output s out)
    (hok : out.1 = .ok ()) : out.2.at? (pathOf output).place = some (.file s.file) :=
  (h.keeping.plain.stat_file (h.found hok)).2

/-- **A sidecar that was saved is loaded.** -/
theorem Saved.load {t : FileTree} {output : Path} {s : Sidecar}
    {out : Except (Path × Files.IoFault) Unit × FileTree} (h : Saved t output s out)
    (hok : out.1 = .ok ()) : Sidecar.load out.2 output = (some s, []) := by
  have hbytes : out.2.readBytes (pathOf output) = .ok s.file.bytes := by
    rw [FileTree.readBytes, FileTree.readContent_of_stat (h.found hok)]
    rfl
  have hparse : parse? s.file.bytes = some s := parse?_render s
  rw [Sidecar.load, hbytes]
  dsimp only
  rw [hparse]

end Nomenclator.Remap.Sidecar
