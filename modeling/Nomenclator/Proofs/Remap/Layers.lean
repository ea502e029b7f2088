import Nomenclator.Proofs.Naming.RenameTable
import Nomenclator.Proofs.Text.Utf8
import Nomenclator.Remap.Job

/-!
    # Layers — which tables share a fingerprint

    A layer is known to a sidecar by the digest of its identity: label, direction and catalog
    fingerprint, joined by zeros, with the direction written as `source -> dest`. The digest
    is taken to tell the two identities apart that are compared, and no more: a digest of 32
    octets cannot be injective.

    * The identity falls apart again when the zeros on both sides are equally many
      (`cut_unique`, `identity_eq_iff`).
    * The text of a direction does not say which of its arrows is the one between the labels
      (`Direction.text_eq_iff`): a label may hold an arrow, or the end or start of one.

    So layers with one fingerprint are one layer exactly when neither of the two occurs
    (`Layer.fingerprint_separates_iff`).
-/

namespace Nomenclator

-- ── Directions with one text ─────────────────────────────────────────────────

/-- The arrow between the labels is moved to the right: the second direction takes the text up
    to a later arrow for its source. The two arrows may share their blank. -/
def Direction.ShiftsTo (p q : Direction) : Prop :=
  ∃ between : String, q.source ++ " " = p.source ++ " -> " ++ between
    ∧ p.dest = between ++ "-> " ++ q.dest

namespace Direction

theorem toList_text (p : Direction) :
    p.text.toList = p.source.toList ++ ([' ', '-', '>', ' '] ++ p.dest.toList) := by
  simp [text]

theorem shiftsTo_iff (p q : Direction) :
    p.ShiftsTo q ↔ ∃ between : List Char,
      q.source.toList ++ [' '] = p.source.toList ++ ([' ', '-', '>', ' '] ++ between)
        ∧ p.dest.toList = between ++ (['-', '>', ' '] ++ q.dest.toList) := by
  constructor
  · rintro ⟨between, hsource, hdest⟩
    refine ⟨between.toList, ?_, ?_⟩
    · simpa using congrArg String.toList hsource
    · simpa using congrArg String.toList hdest
  · rintro ⟨between, hsource, hdest⟩
    refine ⟨String.ofList between, ?_, ?_⟩
    · exact String.toList_injective (by simpa using hsource)
    · exact String.toList_injective (by simpa using hdest)

/-- A direction with its arrow moved is another direction. -/
theorem ShiftsTo.ne {p q : Direction} (h : p.ShiftsTo q) : p ≠ q := by
  rintro rfl
  obtain ⟨between, hsource, -⟩ := (shiftsTo_iff p p).1 h
  have hlength := congrArg List.length hsource
  simp only [List.length_append, List.length_cons] at hlength
  omega

theorem ShiftsTo.text_eq {p q : Direction} (h : p.ShiftsTo q) : p.text = q.text := by
  obtain ⟨between, hsource, hdest⟩ := (shiftsTo_iff p q).1 h
  refine String.toList_injective ?_
  calc p.text.toList
      = (p.source.toList ++ ([' ', '-', '>', ' '] ++ between))
          ++ (['-', '>', ' '] ++ q.dest.toList) := by rw [toList_text, hdest]; simp
    _ = (q.source.toList ++ [' ']) ++ (['-', '>', ' '] ++ q.dest.toList) := by rw [hsource]
    _ = q.text.toList := by rw [toList_text]; simp

/-- The arrow of the longer source starts inside the shorter direction's arrow, or behind it. -/
theorem shiftsTo_of_longer {p q : Direction} {more : List Char}
    (hsource : q.source.toList = p.source.toList ++ more)
    (htext : [' ', '-', '>', ' '] ++ p.dest.toList
      = more ++ ([' ', '-', '>', ' '] ++ q.dest.toList)) :
    p = q ∨ p.ShiftsTo q := by
  rw [shiftsTo_iff]
  match more with
  | [] =>
      refine .inl ?_
      have hdest : p.dest = q.dest := String.toList_injective (by simpa using htext)
      have hsame : q.source = p.source := String.toList_injective (by simpa using hsource)
      cases p
      cases q
      simp_all
  | [_] => simp at htext
  | [_, _] => simp at htext
  | [c₁, c₂, c₃] =>
      -- the blank that ends the first arrow starts the second
      simp only [List.cons_append, List.nil_append, List.cons.injEq] at htext
      obtain ⟨rfl, rfl, rfl, hdest⟩ := htext
      exact .inr ⟨[], by simp [hsource], by simp [hdest]⟩
  | c₁ :: c₂ :: c₃ :: c₄ :: rest =>
      simp only [List.cons_append, List.nil_append, List.cons.injEq] at htext
      obtain ⟨rfl, rfl, rfl, rfl, hdest⟩ := htext
      exact .inr ⟨rest ++ [' '], by simp [hsource], by simp [hdest]⟩

/-- **Directions with one text are one direction, up to the place of the arrow.** -/
theorem text_eq_iff (p q : Direction) :
    p.text = q.text ↔ p = q ∨ p.ShiftsTo q ∨ q.ShiftsTo p := by
  constructor
  · intro h
    have hlist := congrArg String.toList h
    rw [toList_text, toList_text] at hlist
    obtain ⟨more, hsource, htext⟩ | ⟨more, hsource, htext⟩ := List.append_eq_append_iff.1 hlist
    · exact (shiftsTo_of_longer hsource htext).imp_right .inl
    · exact (shiftsTo_of_longer hsource htext).imp Eq.symm .inr
  · rintro (rfl | h | h)
    · rfl
    · exact h.text_eq
    · exact h.text_eq.symm

end Direction

-- ── Texts joined by a separator ──────────────────────────────────────────────

/-- Two texts that are cut at the same separator, counted from the front, are cut into the same
    parts. -/
theorem cut_unique {α : Type} [DecidableEq α] {separator : α} {a a' b b' : List α}
    (hcount : a.count separator = a'.count separator)
    (h : a ++ separator :: b = a' ++ separator :: b') : a = a' ∧ b = b' := by
  obtain ⟨more, rfl, hrest⟩ | ⟨more, rfl, hrest⟩ := List.append_eq_append_iff.1 h
  all_goals
    cases more with
    | nil => simp_all
    | cons c more =>
        obtain ⟨rfl, -⟩ := List.cons.inj hrest
        simp only [List.count_append, List.count_cons_self] at hcount
        omega

namespace Text

theorem encodeUtf8_append (text more : List Char) :
    encodeUtf8 (text ++ more) = encodeUtf8 text ++ encodeUtf8 more :=
  List.flatMap_append

theorem encodeUtf8_zero (text : List Char) : encodeUtf8 ('\x00' :: text) = 0 :: encodeUtf8 text :=
  rfl

end Text

-- ── Digests ──────────────────────────────────────────────────────────────────

namespace Digest

theorem digitChar_injective {a b : Nat} (ha : a < 16) (hb : b < 16)
    (h : Nat.digitChar a = Nat.digitChar b) : a = b := by
  have hall : ∀ a < 16, ∀ b < 16, Nat.digitChar a = Nat.digitChar b → a = b := by decide
  exact hall a ha b hb h

theorem hex_injective {x y : Bytes} (h : hex x = hex y) : x = y := by
  have hdigits := String.ofList_injective h
  induction x generalizing y with
  | nil => cases y <;> simp_all
  | cons a x ih =>
      cases y with
      | nil => simp at hdigits
      | cons b y =>
          simp only [List.flatMap_cons, List.cons_append, List.nil_append, List.cons.injEq]
            at hdigits
          obtain ⟨hhigh, hlow, hrest⟩ := hdigits
          have ha := a.toNat_lt
          have hb := b.toNat_lt
          have hhigh := digitChar_injective (by omega) (by omega) hhigh
          have hlow := digitChar_injective (by omega) (by omega) hlow
          have hoctet : a = b := UInt8.toNat_inj.1 (by omega)
          rw [hoctet, ih (congrArg String.ofList hrest) hrest]

/-- The two messages are not a collision. -/
def Separates (x y : Bytes) : Prop := sha256 x = sha256 y → x = y

theorem Separates.fingerprint_eq_iff {x y : Bytes} (h : Separates x y) :
    fingerprint x = fingerprint y ↔ x = y :=
  ⟨fun heq => h (hex_injective heq), congrArg fingerprint⟩

end Digest

namespace Remap.Layer

open Naming (Catalog RenameTable)

/-- How many of the characters that join the parts of an identity a text has itself. -/
def zeros (text : String) : Nat := text.toList.count '\x00'

theorem identity_eq (label : String) (direction : Direction) (catalog : String) :
    identity label direction catalog
      = Text.encodeUtf8 (label.toList ++ '\x00' :: (direction.text.toList
          ++ '\x00' :: catalog.toList)) := by
  simp only [identity, Text.encodeUtf8_append, Text.encodeUtf8_zero, List.append_assoc,
    List.cons_append]

/-- Identities with equally many zeros in their labels and in their catalog fingerprints agree
    part by part. -/
theorem identity_eq_iff {label label' : String} {p p' : Direction} {catalog catalog' : String}
    (hlabel : zeros label = zeros label') (hcatalog : zeros catalog = zeros catalog') :
    identity label p catalog = identity label' p' catalog'
      ↔ label = label' ∧ p.text = p'.text ∧ catalog = catalog' := by
  constructor
  · intro h
    rw [identity_eq, identity_eq] at h
    obtain ⟨hlabels, hrest⟩ := cut_unique hlabel (Text.encodeUtf8_injective h)
    -- the zeros of the directions are those that are left over
    have htext : p.text.toList.count '\x00' = p'.text.toList.count '\x00' := by
      have hcount := congrArg (List.count '\x00') hrest
      simp only [List.count_append, List.count_cons_self] at hcount
      simp only [zeros] at hcatalog
      omega
    obtain ⟨htexts, hcatalogs⟩ := cut_unique htext hrest
    exact ⟨String.toList_injective hlabels, String.toList_injective htexts,
      String.toList_injective hcatalogs⟩
  · rintro ⟨rfl, htext, rfl⟩
    rw [identity_eq, identity_eq, htext]

/-- The layer that a target is remapped with first. -/
def primary (catalog : Catalog) (table : RenameTable) : Layer :=
  make "primary" table catalog.fingerprint

theorem primary_fingerprint_eq_iff {catalog : Catalog} {table table' : RenameTable}
    (hash : Digest.Separates (identity "primary" table.direction catalog.fingerprint)
      (identity "primary" table'.direction catalog.fingerprint)) :
    (primary catalog table).fingerprint = (primary catalog table').fingerprint
      ↔ table.direction = table'.direction ∨ table.direction.ShiftsTo table'.direction
          ∨ table'.direction.ShiftsTo table.direction := by
  rw [primary, primary, make, make, hash.fingerprint_eq_iff, identity_eq_iff rfl rfl,
    ← Direction.text_eq_iff]
  simp

/-- **Which layers a fingerprint separates.** Two layers with one fingerprint are one layer
    exactly when their labels and their catalog fingerprints have equally many zeros and neither
    direction is the other one with its arrow moved. Two builds with a primary layer of one
    catalog each are the same build exactly when all the rest of them agrees and the directions
    are equal up to the place of the arrow. -/
theorem fingerprint_separates_iff (table table' : RenameTable) :
    (∀ label label' catalog catalog' : String,
      Digest.Separates (identity label table.direction catalog)
          (identity label' table'.direction catalog') →
        (make label table catalog).fingerprint = (make label' table' catalog').fingerprint →
          ((label = label' ∧ table.direction = table'.direction ∧ catalog = catalog')
            ↔ (zeros label = zeros label' ∧ zeros catalog = zeros catalog'
              ∧ ¬ table.direction.ShiftsTo table'.direction
              ∧ ¬ table'.direction.ShiftsTo table.direction)))
    ∧ ∀ (catalog : Catalog) (p p' : Direction),
      RenameTable.ofCatalog catalog p = .ok table →
      RenameTable.ofCatalog catalog p' = .ok table' →
      Digest.Separates (identity "primary" p catalog.fingerprint)
          (identity "primary" p' catalog.fingerprint) →
        ∀ (r r' : Remapper) (digest digest' : String),
          (r.sidecar digest (primary catalog table :: r.layers)).sameBuild
              (r'.sidecar digest' (primary catalog table' :: r'.layers)) = true
            ↔ (p = p' ∨ p.ShiftsTo p' ∨ p'.ShiftsTo p)
              ∧ r.tool.name = r'.tool.name ∧ digest = digest'
              ∧ r.layers.map fingerprint = r'.layers.map fingerprint
              ∧ r.settings.flags = r'.settings.flags := by
  refine ⟨?_, ?_⟩
  · intro label label' catalog catalog' hash hsame
    rw [make, make, hash.fingerprint_eq_iff] at hsame
    constructor
    · rintro ⟨rfl, hdirection, rfl⟩
      exact ⟨rfl, rfl, fun h => h.ne hdirection, fun h => h.ne hdirection.symm⟩
    · rintro ⟨hlabel, hcatalog, hright, hleft⟩
      obtain ⟨hlabels, htext, hcatalogs⟩ := (identity_eq_iff hlabel hcatalog).1 hsame
      obtain hdirection | h | h := (Direction.text_eq_iff _ _).1 htext
      · exact ⟨hlabels, hdirection, hcatalogs⟩
      · exact absurd h hright
      · exact absurd h hleft
  · intro catalog p p' htable htable' hash r r' digest digest'
    have hp := RenameTable.direction_ofCatalog htable
    have hp' := RenameTable.direction_ofCatalog htable'
    subst hp hp'
    rw [← primary_fingerprint_eq_iff hash]
    simp only [Sidecar.sameBuild, Remapper.sidecar, List.map_cons, Bool.and_eq_true, beq_iff_eq,
      List.cons.injEq]
    tauto

/-- For the way back the identities differ in the direction alone, and so do the digests: the
    layers have two fingerprints, and two builds that differ in this alone are two builds. -/
theorem fingerprint_separates_iff_way_back :
    let named : Direction := { source := "official", dest := "named" }
    let forth : RenameTable := { direction := named }
    let back : RenameTable := { direction := named.reversed }
    let catalog : Catalog :=
      { format := .tinyV1, namespaces := ⟨["official", "named"]⟩, classes := [], fingerprint := "f" }
    Digest.Separates (identity "primary" named "f") (identity "primary" named.reversed "f")
      ∧ (make "primary" forth "f").fingerprint ≠ (make "primary" back "f").fingerprint
      ∧ ∀ (r : Remapper) (digest : String),
          (r.sidecar digest (primary catalog forth :: r.layers)).sameBuild
            (r.sidecar digest (primary catalog back :: r.layers)) ≠ true := by
  intro named forth back catalog
  have hdigest : Digest.sha256 (identity "primary" named "f")
      ≠ Digest.sha256 (identity "primary" named.reversed "f") := by decide +kernel
  have hseparates : Digest.Separates (identity "primary" named "f")
      (identity "primary" named.reversed "f") := fun h => absurd h hdigest
  have hright : ¬ named.ShiftsTo named.reversed := fun h => absurd h.text_eq (by decide)
  have hleft : ¬ named.reversed.ShiftsTo named := fun h => absurd h.text_eq (by decide)
  refine ⟨hseparates, fun hsame => ?_, fun r digest hsame => ?_⟩
  · have hlayer := ((fingerprint_separates_iff forth back).1 "primary" "primary" "f" "f" hseparates
      hsame).2 ⟨rfl, rfl, hright, hleft⟩
    exact absurd hlayer.2.1 (by decide)
  · obtain ⟨h | h | h, -⟩ := ((fingerprint_separates_iff forth back).2 catalog named named.reversed
      rfl rfl hseparates r r digest digest).1 hsame
    · exact absurd h (by decide)
    · exact hright h
    · exact hleft h

/-- **Different layers with one fingerprint.** An arrow inside a label, an arrow that shares its
    blank, a zero in the label of a layer and one in the fingerprint of its catalog; and for the
    first of these, one catalog that is loaded from a text and declares both pairs, for which
    any two builds are the same build. -/
theorem fingerprint_confuses :
    (∃ (catalog : Catalog) (table table' : RenameTable),
      Catalog.load "v1\ta\ta -> b\tb -> c\tc\n" = .ok catalog
      ∧ RenameTable.ofCatalog catalog ⟨"a -> b", "c"⟩ = .ok table
      ∧ RenameTable.ofCatalog catalog ⟨"a", "b -> c"⟩ = .ok table'
      ∧ (primary catalog table).fingerprint = (primary catalog table').fingerprint
      ∧ ∀ (r : Remapper) (digest : String),
          (r.sidecar digest (primary catalog table :: r.layers)).sameBuild
            (r.sidecar digest (primary catalog table' :: r.layers)) = true)
    ∧ (make "primary" { direction := ⟨"a ->", "b"⟩ } "f").fingerprint
        = (make "primary" { direction := ⟨"a", "-> b"⟩ } "f").fingerprint
    ∧ (make "a\x00b" { direction := ⟨"x", "y"⟩ } "f").fingerprint
        = (make "a" { direction := ⟨"b\x00x", "y"⟩ } "f").fingerprint
    ∧ (make "a" { direction := ⟨"x", "y"⟩ } "z\x00f").fingerprint
        = (make "a" { direction := ⟨"x", "y\x00z"⟩ } "f").fingerprint := by
  refine ⟨?_, congrArg Digest.fingerprint (by decide), congrArg Digest.fingerprint (by decide),
    congrArg Digest.fingerprint (by decide)⟩
  let catalog : Catalog :=
    { format := .tinyV1
      namespaces := ⟨["a", "a -> b", "b -> c", "c"]⟩
      classes := []
      fingerprint := Digest.fingerprintOf "v1\ta\ta -> b\tb -> c\tc\n" }
  let table : RenameTable := { direction := ⟨"a -> b", "c"⟩ }
  let table' : RenameTable := { direction := ⟨"a", "b -> c"⟩ }
  have hload : Catalog.load "v1\ta\ta -> b\tb -> c\tc\n" = .ok catalog := by decide +kernel
  have htext : table.direction.text = table'.direction.text := by decide
  have hsame : (primary catalog table).fingerprint = (primary catalog table').fingerprint :=
    congrArg Digest.fingerprint (by rw [identity, identity, htext])
  refine ⟨catalog, table, table', hload, rfl, rfl, hsame, fun r digest => ?_⟩
  simp [Sidecar.sameBuild, Remapper.sidecar, hsame]

end Remap.Layer

end Nomenclator
