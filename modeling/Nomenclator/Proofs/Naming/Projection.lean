import Nomenclator.Proofs.Naming.Catalog
import Nomenclator.Proofs.Naming.Join

/-! # Projections — the rename table of a catalog

    A table that is read off a catalog has one entry for each identity in the source
    namespace, and the LAST symbol with an identity gives the target name
    (`Projects`).  So symbols that share an identity fall together.

    In the first namespace none do: loading joins classes with one name and members
    with one key, and the descriptor in the first namespace is the declared one.
    There the table has an entry of its own for every symbol (`Lossless`). -/

namespace Nomenclator.Naming

/-- The target names of a table that is read off two namespaces. -/
def RenameTable.Targets.namesAt (dest : Nat) : RenameTable.Targets where
  ofClass c := c.name dest
  ofMember _ m := m.name dest

/-- A label that is the first resolves to the first position. -/
theorem Namespaces.resolve_first {ns : Namespaces} {label : String} {i : Nat}
    (hfirst : ns.labels.head? = some label) (h : ns.resolve label = .ok i) : i = 0 := by
  obtain ⟨labels⟩ := ns
  cases labels with
  | nil => exact nomatch hfirst
  | cons first later =>
      obtain rfl := Option.some.inj hfirst
      have hindex : (first :: later).idxOf? first = some 0 := by
        rw [List.idxOf?, List.findIdx?_cons, beq_self_eq_true]
        rfl
      rw [resolve] at h
      dsimp only at h
      rw [hindex] at h
      exact (Except.ok.inj h).symm

-- ── Identities of their own ──────────────────────────────────────────────────

/-- Where readings differ, exactly one item has the reading of an item. -/
theorem filter_eq_singleton {α κ : Type} [DecidableEq κ] {read : α → κ} {items : List α} {x : α}
    (hnodup : (items.map read).Nodup) (hx : x ∈ items) :
    items.filter (fun y => read y = read x) = [x] := by
  induction items with
  | nil => exact nomatch hx
  | cons first later ih =>
      obtain ⟨hnew, hlater⟩ := List.nodup_cons.1 hnodup
      rcases List.mem_cons.1 hx with rfl | hx
      · rw [List.filter_cons_of_pos (by exact decide_eq_true rfl)]
        refine congrArg (x :: ·) (List.filter_eq_nil_iff.2 fun y hy heq => hnew ?_)
        exact List.mem_map.2 ⟨y, hy, of_decide_eq_true heq⟩
      · have hother : read first ≠ read x := fun heq =>
          hnew (List.mem_map.2 ⟨x, hx, heq.symm⟩)
        rw [List.filter_cons_of_neg (by exact fun heq => hother (of_decide_eq_true heq))]
        exact ih hlater hx

/-- Where class names differ, a class is the only one with its name. -/
theorem namedIn_of_nodup {ns : Nat} {classes : List ClassEntry} {c : ClassEntry}
    (h : (classIdsIn ns classes).Nodup) (hc : c ∈ classes) :
    namedIn ns (c.name ns) classes = [c] :=
  filter_eq_singleton h hc

/-- Where class names differ, the members under a class name are those of the class. -/
theorem withKey_of_nodup {ns : Nat} {classes : List ClassEntry} {c : ClassEntry}
    (h : (classIdsIn ns classes).Nodup) (hc : c ∈ classes) (kind : MemberKind) (key : MemberKey) :
    withKey ns kind (c.name ns) key classes
      = (c.members kind).filter fun m => m.key ns = key := by
  rw [withKey, namedIn_of_nodup h hc, membersIn, List.flatMap_singleton]

/-- A catalog that was loaded has the shape of one. -/
theorem Catalog.loadedFrom_of_load {text : String} {catalog : Catalog}
    (h : Catalog.load text = .ok catalog) : catalog.LoadedFrom text := by
  obtain ⟨doc, hread, hentries, -, hns, -⟩ := load_eq_ok_iff.1 h
  exact loadedFrom_of_entries hread hentries hns

/-- In the first namespace of a loaded catalog no two symbols of one kind share an identity. -/
theorem Catalog.LoadedFrom.distinctIdentities {text : String} {catalog : Catalog}
    (h : catalog.LoadedFrom text) : DistinctIdentities 0 catalog.classes := by
  refine ⟨h.classNames, fun kind => List.nodup_flatMap.2 ⟨fun c hc => ?_, ?_⟩⟩
  · have hids := (h.memberKeys c hc kind).map (f := fun key => (c.name 0, key))
      fun _ _ heq => (Prod.mk.inj heq).2
    rwa [List.map_map] at hids
  · refine (List.pairwise_map.1 h.classNames).imp fun hne id hid hid' => ?_
    obtain ⟨_, -, rfl⟩ := List.mem_map.1 hid
    obtain ⟨_, -, heq⟩ := List.mem_map.1 hid'
    exact hne (Prod.mk.inj heq).1.symm

theorem Catalog.symbolCount_eq (catalog : Catalog) (ns : Nat) :
    catalog.symbolCount = (classIdsIn ns catalog.classes).length
      + (memberIdsIn ns .field catalog.classes).length
      + (memberIdsIn ns .method catalog.classes).length := by
  rw [length_memberIdsIn, length_memberIdsIn, classIdsIn, List.length_map]
  rfl

-- ── Tables ───────────────────────────────────────────────────────────────────

namespace RenameTable

/-- A catalog gives a table between any two of its namespaces. -/
theorem ofCatalog_eq_ok {catalog : Catalog} {direction : Direction} {source dest : Nat}
    (hsource : catalog.resolve direction.source = .ok source)
    (hdest : catalog.resolve direction.dest = .ok dest) :
    ofCatalog catalog direction
      = .ok (catalog.classes.foldl (enter source (.namesAt dest)) { direction }) := by
  rw [ofCatalog, hsource, hdest]
  rfl

/-- What a table has to do with two namespaces of a catalog: its keys are the identities in the
    first of them, each with the name that the last symbol of this identity has in the second. -/
structure Projects (catalog : Catalog) (source dest : Nat) (table : RenameTable) : Prop where
  classKeys : ∀ k, k ∈ table.classes.keys ↔ ∃ c ∈ catalog.classes, c.name source = k
  memberKeys : ∀ kind k key, (k, key) ∈ table.memberIds kind
    ↔ ∃ c ∈ catalog.classes, c.name source = k ∧ ∃ m ∈ c.members kind, m.key source = key
  classes : ∀ k, table.className? k
    = ((namedIn source k catalog.classes).getLast?).map fun c => c.name dest
  members : ∀ kind k key, table.memberName? kind k key
    = ((withKey source kind k key catalog.classes).getLast?).map fun m => m.name dest
  entries : table.entryCount = (classIdsIn source catalog.classes).dedup.length
    + (memberIdsIn source .field catalog.classes).dedup.length
    + (memberIdsIn source .method catalog.classes).dedup.length

/-- Every symbol of the catalog has an entry of its own, under its identity in the first
    namespace. -/
structure Lossless (catalog : Catalog) (dest : Nat) (table : RenameTable) : Prop where
  distinct : DistinctIdentities 0 catalog.classes
  entries : table.entryCount = catalog.symbolCount
  classes : ∀ c ∈ catalog.classes, table.className? (c.name 0) = some (c.name dest)
  members : ∀ c ∈ catalog.classes, ∀ kind, ∀ m ∈ c.members kind,
    table.memberName? kind (c.name 0) (m.key 0) = some (m.name dest)

theorem projects_enterAll (catalog : Catalog) (source dest : Nat) (direction : Direction) :
    Projects catalog source dest
      (catalog.classes.foldl (enter source (.namesAt dest)) { direction }) := by
  have hclass : ∀ k,
      (catalog.classes.foldl (enter source (.namesAt dest)) { direction }).className? k
        = ((namedIn source k catalog.classes).getLast?).map fun c => c.name dest := by
    intro k
    rw [className?_enterAll, show ({ direction } : RenameTable).className? k = none from rfl,
      Option.or_none]
    rfl
  have hmember : ∀ kind k key,
      (catalog.classes.foldl (enter source (.namesAt dest)) { direction }).memberName? kind k key
        = ((withKey source kind k key catalog.classes).getLast?).map fun m => m.name dest := by
    intro kind k key
    rw [memberName?_enterAll,
      show ({ direction } : RenameTable).memberName? kind k key = none from rfl, Option.or_none]
    rfl
  refine ⟨fun k => ?_, fun kind k key => ?_, hclass, hmember, entryCount_enterAll _ _ _ _⟩
  · have hkey := hclass k
    rw [className?] at hkey
    rw [SortedMap.mem_keys_iff, ← Option.isSome_map, hkey, Option.isSome_map,
      ← mem_classIdsIn_iff, classIdsIn, List.mem_map]
  · rw [mem_memberIds_iff, hmember, Option.isSome_map, ← mem_memberIdsIn_iff, memberIdsIn,
      List.mem_flatMap]
    constructor
    · rintro ⟨c, hc, hid⟩
      obtain ⟨m, hm, heq⟩ := List.mem_map.1 hid
      obtain ⟨hk, hkey⟩ := Prod.mk.inj heq
      exact ⟨c, hc, hk, m, hm, hkey⟩
    · rintro ⟨c, hc, rfl, m, hm, rfl⟩
      exact ⟨c, hc, List.mem_map.2 ⟨m, hm, rfl⟩⟩

/-- A table that is read off the first namespace of a loaded catalog loses nothing. -/
theorem Projects.lossless {text : String} {catalog : Catalog} {dest : Nat} {table : RenameTable}
    (h : Projects catalog 0 dest table) (hloaded : catalog.LoadedFrom text) :
    Lossless catalog dest table := by
  have hdistinct := hloaded.distinctIdentities
  refine ⟨hdistinct, ?_, fun c hc => ?_, fun c hc kind m hm => ?_⟩
  · rw [h.entries, List.dedup_eq_self.2 hdistinct.ofClasses,
      List.dedup_eq_self.2 (hdistinct.ofMembers .field),
      List.dedup_eq_self.2 (hdistinct.ofMembers .method), catalog.symbolCount_eq 0]
  · rw [h.classes, namedIn_of_nodup hdistinct.ofClasses hc]
    rfl
  · rw [h.members, withKey_of_nodup hdistinct.ofClasses hc,
      filter_eq_singleton (hloaded.memberKeys c hc kind) hm]
    rfl

/-- **The projection of a loaded catalog.** Between two declared namespaces there is a table.
    Its keys are exactly the identities of classes and members in the first of the two, and the
    last symbol with an identity decides on its target name. If the source is the first
    namespace that the catalog declares, every symbol is found under its own identity, with its
    own target name. -/
theorem ofCatalog_projects {text : String} {catalog : Catalog}
    (hload : Catalog.load text = .ok catalog) (direction : Direction) {source dest : Nat}
    (hsource : catalog.resolve direction.source = .ok source)
    (hdest : catalog.resolve direction.dest = .ok dest) :
    ∃ table, ofCatalog catalog direction = .ok table ∧ table.direction = direction
      ∧ Projects catalog source dest table
      ∧ (catalog.namespaces.labels.head? = some direction.source →
          Lossless catalog dest table) := by
  have htable := ofCatalog_eq_ok hsource hdest
  refine ⟨_, htable, direction_ofCatalog htable, projects_enterAll .., ?_⟩
  intro hfirst
  obtain rfl := Namespaces.resolve_first hfirst hsource
  exact (projects_enterAll ..).lossless (Catalog.loadedFrom_of_load hload)

/-- Two classes and two fields that fall together in the second namespace, and not in the
    first. -/
theorem ofCatalog_projects_shared_names :
    ∃ catalog, Catalog.load
        "v1\ta\tb\nCLASS\tx\tK\nCLASS\ty\tK\nFIELD\tx\tLx;\tf\tg\nFIELD\ty\tLy;\th\tg\n" = .ok catalog
      ∧ (∃ table, ofCatalog catalog ⟨"b", "a"⟩ = .ok table ∧ Projects catalog 1 0 table
          ∧ table.entryCount = 2 ∧ table.className? "K" = some "y"
          ∧ table.memberName? .field "K" ⟨"g", "LK;"⟩ = some "h")
      ∧ ∃ table, ofCatalog catalog ⟨"a", "b"⟩ = .ok table ∧ Lossless catalog 1 table
          ∧ table.entryCount = 4 := by
  let catalog : Catalog :=
    { format := .tinyV1
      namespaces := ⟨["a", "b"]⟩
      classes := [⟨["x", "K"], [⟨["f", "g"], ["Lx;", "LK;"]⟩], []⟩,
        ⟨["y", "K"], [⟨["h", "g"], ["Ly;", "LK;"]⟩], []⟩]
      fingerprint := Digest.fingerprintOf
        "v1\ta\tb\nCLASS\tx\tK\nCLASS\ty\tK\nFIELD\tx\tLx;\tf\tg\nFIELD\ty\tLy;\th\tg\n" }
  have hload : Catalog.load
      "v1\ta\tb\nCLASS\tx\tK\nCLASS\ty\tK\nFIELD\tx\tLx;\tf\tg\nFIELD\ty\tLy;\th\tg\n"
        = .ok catalog := rfl
  have ha : catalog.resolve "a" = .ok 0 := rfl
  have hb : catalog.resolve "b" = .ok 1 := rfl
  obtain ⟨back, hback, -, hprojects, -⟩ := ofCatalog_projects hload ⟨"b", "a"⟩ hb ha
  obtain ⟨table, htable, -, -, hlossless⟩ := ofCatalog_projects hload ⟨"a", "b"⟩ ha hb
  have hforward := hlossless rfl
  refine ⟨catalog, hload, ⟨back, hback, hprojects, ?_, ?_, ?_⟩, table, htable, hforward, ?_⟩
  · rw [hprojects.entries]
    decide
  · rw [hprojects.classes]
    rfl
  · rw [hprojects.members]
    rfl
  · rw [hforward.entries]
    rfl

end RenameTable

end Nomenclator.Naming
