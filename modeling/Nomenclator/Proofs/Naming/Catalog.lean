import Mathlib.Data.List.GetD
import Nomenclator.Proofs.Naming.Descriptor
import Nomenclator.Proofs.Naming.Rows
import Nomenclator.Proofs.SortedMap

/-! # Catalogs — the shape of every loaded document

    Loading takes the rows of a document, joins repeated declarations, and writes
    every descriptor in every namespace.  Each stage keeps what the readers
    established and adds its own part.

    * **Classes** — joining keeps one row per first name;
    * **Members** — within a class and a kind, one row per first name and descriptor;
    * **Descriptors** — one per label, the renaming of the declared one; in the first
      namespace every class keeps its name, so the declared one stands there. -/

namespace Nomenclator.Naming

-- ── Repeated classes ─────────────────────────────────────────────────────────

/-- The class row with the members of another one after its own. -/
def ClassRow.extend (c incoming : ClassRow) : ClassRow :=
  { c with fields := c.fields ++ incoming.fields, methods := c.methods ++ incoming.methods }

theorem ClassRow.members_extend (c incoming : ClassRow) (kind : MemberKind) :
    (c.extend incoming).members kind = c.members kind ++ incoming.members kind := by
  cases kind <;> rfl

theorem ClassRow.Good.extend {count : Nat} {test : MemberKind → MemberRow → Prop}
    {c incoming : ClassRow} (hc : c.Good count test) (hincoming : incoming.Good count test) :
    (c.extend incoming).Good count test := by
  refine ⟨hc.names, fun kind m hm => ?_⟩
  rw [members_extend] at hm
  rcases List.mem_append.1 hm with hm | hm
  · exact hc.members kind m hm
  · exact hincoming.members kind m hm

/-- A row that is extended keeps its names. -/
theorem firstNames_extend (before after : List ClassRow) (c incoming : ClassRow) :
    (before ++ c.extend incoming :: after).map ClassRow.firstName
      = (before ++ c :: after).map ClassRow.firstName := by
  rw [List.map_append, List.map_append]
  rfl

/-- Adding a class row either puts it last, under a first name of its own, or extends the
    first row that has its first name and agrees with it. -/
theorem mergeClass_eq_ok {ns : Namespaces} {incoming : ClassRow} {merged out : List ClassRow}
    (h : mergeClass ns incoming merged = .ok out) :
    (incoming.firstName ∉ merged.map ClassRow.firstName ∧ out = merged ++ [incoming])
      ∨ ∃ before c after, merged = before ++ c :: after ∧ c.firstName = incoming.firstName
          ∧ checkSame ns .ofClass incoming.line c.names incoming.names = .ok ()
          ∧ out = before ++ c.extend incoming :: after := by
  induction merged generalizing out with
  | nil =>
      cases h
      exact .inl ⟨List.not_mem_nil, rfl⟩
  | cons c later ih =>
      rw [mergeClass] at h
      by_cases hname : c.firstName = incoming.firstName
      · rw [if_pos hname] at h
        obtain ⟨_, hsame, rfl⟩ := Outcome.map_eq_ok.1 h
        exact .inr ⟨[], c, later, rfl, hname, hsame, rfl⟩
      · rw [if_neg hname] at h
        obtain ⟨rest, hrest, rfl⟩ := Outcome.map_eq_ok.1 h
        rcases ih hrest with ⟨hnew, rfl⟩ | ⟨before, d, after, rfl, hd, hsame, rfl⟩
        · refine .inl ⟨fun hmem => ?_, rfl⟩
          rcases List.mem_cons.1 hmem with heq | hmem
          · exact hname heq.symm
          · exact hnew hmem
        · exact .inr ⟨c :: before, d, after, rfl, hd, hsame, rfl⟩

/-- One row per first name, each with what the rows of that class had. -/
structure Merged (count : Nat) (test : MemberKind → MemberRow → Prop) (rows : List ClassRow) :
    Prop where
  distinct : (rows.map ClassRow.firstName).Nodup
  good : ∀ c ∈ rows, c.Good count test

theorem Merged.mergeClass {count : Nat} {test : MemberKind → MemberRow → Prop}
    {ns : Namespaces} {incoming : ClassRow} {merged out : List ClassRow}
    (hm : Merged count test merged) (hin : incoming.Good count test)
    (h : mergeClass ns incoming merged = .ok out) : Merged count test out := by
  rcases mergeClass_eq_ok h with ⟨hnew, rfl⟩ | ⟨before, c, after, rfl, -, -, rfl⟩
  · refine ⟨?_, fun c hc => ?_⟩
    · rw [List.map_append]
      exact List.Nodup.append hm.distinct (List.nodup_singleton _)
        (List.disjoint_singleton.2 hnew)
    · rcases List.mem_append.1 hc with hc | hc
      · exact hm.good c hc
      · exact List.mem_singleton.1 hc ▸ hin
  · refine ⟨?_, fun d hd => ?_⟩
    · rw [firstNames_extend]
      exact hm.distinct
    · rcases List.mem_append.1 hd with hd | hd
      · exact hm.good d (List.mem_append_left _ hd)
      · rcases List.mem_cons.1 hd with rfl | hd
        · exact (hm.good c (List.mem_append_right _ List.mem_cons_self)).extend hin
        · exact hm.good d (List.mem_append_right _ (List.mem_cons_of_mem _ hd))

theorem mergeClasses_eq_ok {count : Nat} {test : MemberKind → MemberRow → Prop}
    {ns : Namespaces} {rows merged : List ClassRow} (hrows : ∀ c ∈ rows, c.Good count test)
    (h : mergeClasses ns rows = .ok merged) : Merged count test merged := by
  have hstart : Merged count test [] := ⟨List.nodup_nil, (fun _ hc => nomatch hc)⟩
  have hrun := Outcome.foldlM_induction
    (fun later merged => (∀ c ∈ later, c.Good count test) ∧ Merged count test merged)
    (fun c later s s' hi hs => ⟨fun d hd => hi.1 d (List.mem_cons_of_mem _ hd),
      hi.2.mergeClass (hi.1 c List.mem_cons_self) hs⟩)
    ⟨hrows, hstart⟩ h
  exact hrun.2

-- ── Repeated members ─────────────────────────────────────────────────────────

/-- What tells the member rows of one kind in a class apart. -/
def MemberRow.key (m : MemberRow) : MemberKey :=
  { name := m.firstName, descriptor := m.descriptor }

/-- Adding a member row either puts it last, under a key of its own, or changes nothing
    because a row with its key agrees with it. -/
theorem mergeMember_eq_ok {ns : Namespaces} {kind : MemberKind} {incoming : MemberRow}
    {merged out : List MemberRow} (h : mergeMember ns kind incoming merged = .ok out) :
    (incoming.key ∉ merged.map MemberRow.key ∧ out = merged ++ [incoming])
      ∨ ((∃ m ∈ merged, m.key = incoming.key
            ∧ checkSame ns (.ofMember kind) incoming.line m.names incoming.names = .ok ())
          ∧ out = merged) := by
  induction merged generalizing out with
  | nil =>
      cases h
      exact .inl ⟨List.not_mem_nil, rfl⟩
  | cons m later ih =>
      rw [mergeMember] at h
      by_cases hkey : m.firstName = incoming.firstName ∧ m.descriptor = incoming.descriptor
      · rw [if_pos hkey] at h
        obtain ⟨_, hsame, rfl⟩ := Outcome.map_eq_ok.1 h
        have heq : m.key = incoming.key := by rw [MemberRow.key, hkey.1, hkey.2]; rfl
        exact .inr ⟨⟨m, List.mem_cons_self, heq, hsame⟩, rfl⟩
      · rw [if_neg hkey] at h
        obtain ⟨rest, hrest, rfl⟩ := Outcome.map_eq_ok.1 h
        rcases ih hrest with ⟨hnew, rfl⟩ | ⟨⟨d, hd, hsame⟩, rfl⟩
        · refine .inl ⟨fun hmem => ?_, rfl⟩
          rcases List.mem_cons.1 hmem with heq | hmem
          · obtain ⟨hname, hdesc⟩ := MemberKey.mk.inj heq
            exact hkey ⟨hname.symm, hdesc.symm⟩
          · exact hnew hmem
        · exact .inr ⟨⟨d, List.mem_cons_of_mem _ hd, hsame⟩, rfl⟩

/-- Joined member rows have keys of their own, and each of them was declared. -/
theorem mergeMembers_eq_ok {ns : Namespaces} {kind : MemberKind} {rows merged : List MemberRow}
    (h : mergeMembers ns kind rows = .ok merged) :
    (merged.map MemberRow.key).Nodup ∧ merged ⊆ rows := by
  have hrun := Outcome.foldlM_induction
    (fun later merged => later ⊆ rows ∧ (merged.map MemberRow.key).Nodup ∧ merged ⊆ rows)
    ?_ ⟨fun _ hm => hm, List.nodup_nil, List.nil_subset _⟩ h
  · exact hrun.2
  · rintro incoming later merged out ⟨hlater, hnodup, hsub⟩ hstep
    have hin : incoming ∈ rows := hlater List.mem_cons_self
    refine ⟨fun m hm => hlater (List.mem_cons_of_mem _ hm), ?_⟩
    rcases mergeMember_eq_ok hstep with ⟨hnew, rfl⟩ | ⟨-, rfl⟩
    · refine ⟨?_, fun m hm => ?_⟩
      · rw [List.map_append]
        exact List.Nodup.append hnodup (List.nodup_singleton _) (List.disjoint_singleton.2 hnew)
      · rcases List.mem_append.1 hm with hm | hm
        · exact hsub hm
        · exact List.mem_singleton.1 hm ▸ hin
    · exact ⟨hnodup, hsub⟩

theorem mergeWithin_eq_ok {ns : Namespaces} {c out : ClassRow} (h : mergeWithin ns c = .ok out) :
    out.names = c.names
      ∧ ∀ kind, ((out.members kind).map MemberRow.key).Nodup
          ∧ out.members kind ⊆ c.members kind := by
  obtain ⟨fields, hfields, h⟩ := Outcome.bind_eq_ok.1 h
  obtain ⟨methods, hmethods, h⟩ := Outcome.bind_eq_ok.1 h
  cases h
  refine ⟨rfl, fun kind => ?_⟩
  cases kind with
  | field => exact mergeMembers_eq_ok hfields
  | method => exact mergeMembers_eq_ok hmethods

theorem mergeRows_eq_ok {count : Nat} {test : MemberKind → MemberRow → Prop}
    {ns : Namespaces} {rows out : List ClassRow} (hrows : ∀ c ∈ rows, c.Good count test)
    (h : mergeRows ns rows = .ok out) :
    Merged count test out ∧ ∀ c ∈ out, ∀ kind, ((c.members kind).map MemberRow.key).Nodup := by
  obtain ⟨merged, hmerged, h⟩ := Outcome.bind_eq_ok.1 h
  obtain ⟨hdistinct, hgood⟩ := mergeClasses_eq_ok hrows hmerged
  have hwithin := (Outcome.mapM_eq_ok h).imp fun _ _ => mergeWithin_eq_ok
  have hnames : out.map ClassRow.firstName = merged.map ClassRow.firstName :=
    (Outcome.map_eq_map (hwithin.imp fun c d hcd => congrArg (·.headD "") hcd.1.symm)).symm
  refine ⟨⟨hnames ▸ hdistinct, fun d hd => ?_⟩, fun d hd kind => ?_⟩
  · obtain ⟨c, hc, hcd⟩ := Outcome.exists_source hwithin hd
    refine ⟨hcd.1 ▸ (hgood c hc).names, fun kind m hm => ?_⟩
    exact (hgood c hc).members kind m ((hcd.2 kind).2 hm)
  · obtain ⟨c, -, hcd⟩ := Outcome.exists_source hwithin hd
    exact (hcd.2 kind).1

-- ── Descriptors in every namespace ───────────────────────────────────────────

/-- A described member has the names of its row, and one renamed descriptor per table. -/
theorem describe_eq_ok {tables : List (SortedMap String String)} {row : MemberRow} {m : Member}
    (h : describe tables row = .ok m) :
    m.names = row.names
      ∧ List.Forall₂ (fun table d => Descriptor.renameClasses table.get? row.descriptor = .ok d)
          tables m.descriptors := by
  obtain ⟨descriptors, hdescriptors, rfl⟩ := Outcome.map_eq_ok.1 h
  exact ⟨rfl, (Outcome.mapM_eq_ok hdescriptors).imp fun _ _ hd => Outcome.mapError_eq_ok.1 hd⟩

theorem describeClass_eq_ok {tables : List (SortedMap String String)} {row : ClassRow}
    {c : ClassEntry} (h : describeClass tables row = .ok c) :
    c.names = row.names
      ∧ ∀ kind, List.Forall₂ (fun r m => describe tables r = .ok m)
          (row.members kind) (c.members kind) := by
  obtain ⟨fields, hfields, h⟩ := Outcome.bind_eq_ok.1 h
  obtain ⟨methods, hmethods, h⟩ := Outcome.bind_eq_ok.1 h
  cases h
  refine ⟨rfl, fun kind => ?_⟩
  cases kind with
  | field => exact Outcome.mapM_eq_ok hfields
  | method => exact Outcome.mapM_eq_ok hmethods

/-- What a member of a catalog owes to the row that declares it. -/
structure Member.Renders (catalog : Catalog) (m : Member) (row : MemberRow) : Prop where
  names : m.names = row.names
  literal : m.descriptor 0 = row.descriptor
  renamed : ∀ i < catalog.namespaces.size,
    Descriptor.renameClasses (catalog.classNames 0 i).get? row.descriptor = .ok (m.descriptor i)

/-- A member with one name and one descriptor per label, none of them empty. -/
structure Member.Full (count : Nat) (m : Member) : Prop where
  names : FullNames count m.names
  descriptors : FullNames count m.descriptors

/-- The shape of a catalog that was loaded from a text. -/
structure Catalog.LoadedFrom (text : String) (catalog : Catalog) : Prop where
  declared : catalog.namespaces.labels ≠ []
  labelled : "" ∉ catalog.namespaces.labels
  labels : catalog.namespaces.labels.Nodup
  classes : ∀ c ∈ catalog.classes, FullNames catalog.namespaces.size c.names
  members : ∀ c ∈ catalog.classes, ∀ kind, ∀ m ∈ c.members kind, m.Full catalog.namespaces.size
  classNames : (catalog.classes.map (·.name 0)).Nodup
  memberKeys : ∀ c ∈ catalog.classes, ∀ kind, ((c.members kind).map (·.key 0)).Nodup
  rows : ∀ c ∈ catalog.classes, ∀ kind, ∀ m ∈ c.members kind,
    ∃ row, Declares text kind row ∧ m.Renders catalog row

/-- In the first namespace every class keeps its name. -/
theorem Catalog.classNames_zero (catalog : Catalog) (name new : String)
    (h : (catalog.classNames 0 0).get? name = some new) : new = name := by
  rw [classNames, SortedMap.get?_ofList_map] at h
  obtain ⟨c, hc, rfl⟩ := Option.map_eq_some_iff.1 h
  have hmem := List.mem_filter.1 (List.mem_of_getLast? hc)
  exact of_decide_eq_true hmem.2

theorem names_getD_zero (names : List String) : names.getD 0 "" = names.headD "" := by
  cases names <;> rfl

/-- The tables by which the descriptors of rows are renamed are those of the catalog. -/
theorem nameTable_eq_classNames {catalog : Catalog} {rows : List ClassRow}
    (h : List.Forall₂ (fun r c => ClassEntry.names c = ClassRow.names r) rows catalog.classes)
    (i : Nat) : nameTable rows i = catalog.classNames 0 i := by
  refine congrArg SortedMap.ofList (Outcome.map_eq_map (h.imp fun r c hrc => ?_))
  rw [ClassRow.firstName, ClassEntry.name, ClassEntry.name, hrc, names_getD_zero]

/-- A member that was described through the tables of a catalog is what it owes to its row. -/
theorem Member.renders_of_describe {catalog : Catalog} {row : MemberRow} {m : Member}
    (hlabels : 0 < catalog.namespaces.size)
    (h : describe ((List.range catalog.namespaces.size).map (catalog.classNames 0)) row = .ok m) :
    m.Renders catalog row ∧ m.descriptors.length = catalog.namespaces.size := by
  obtain ⟨hnames, hdescriptors⟩ := describe_eq_ok h
  have hlen : m.descriptors.length = catalog.namespaces.size := by
    rw [← hdescriptors.length_eq, List.length_map, List.length_range]
  have hrenamed : ∀ i < catalog.namespaces.size,
      Descriptor.renameClasses (catalog.classNames 0 i).get? row.descriptor
        = .ok (m.descriptor i) := by
    intro i hi
    have hat := hdescriptors.get (i := i) (by rwa [hdescriptors.length_eq, hlen]) (by rwa [hlen])
    simp only [List.get_eq_getElem, List.getElem_map, List.getElem_range] at hat
    rw [hat, Member.descriptor, List.getD_eq_getElem _ _ (by rwa [hlen])]
  exact ⟨⟨hnames, Descriptor.renameClasses_of_fixed catalog.classNames_zero (hrenamed 0 hlabels),
    hrenamed⟩, hlen⟩

-- ── Loading ──────────────────────────────────────────────────────────────────

/-- The classes of a document are its joined rows, with the descriptors of their members written
    through the tables of the catalog. -/
theorem Document.entries_described {doc : Document} {catalog : Catalog}
    (hentries : doc.entries = .ok catalog.classes) (hns : catalog.namespaces = doc.namespaces) :
    ∃ rows, mergeRows catalog.namespaces doc.classes = .ok rows
      ∧ List.Forall₂ (fun r c => ClassEntry.names c = ClassRow.names r
          ∧ ∀ kind, List.Forall₂ (fun row m =>
              describe ((List.range catalog.namespaces.size).map (catalog.classNames 0)) row = .ok m)
                (r.members kind) (c.members kind))
        rows catalog.classes := by
  obtain ⟨rows, hrows, hdescribed⟩ := Outcome.bind_eq_ok.1 hentries
  rw [← hns] at hrows hdescribed
  have hpairs := (Outcome.mapM_eq_ok hdescribed).imp fun _ _ => describeClass_eq_ok
  have htables : (List.range catalog.namespaces.size).map (nameTable rows)
      = (List.range catalog.namespaces.size).map (catalog.classNames 0) :=
    List.map_congr_left fun i _ => nameTable_eq_classNames (hpairs.imp fun _ _ hrc => hrc.1) i
  rw [htables] at hpairs
  exact ⟨rows, hrows, hpairs⟩

/-- The shape of the catalog that the rows of a document give. -/
theorem Catalog.loadedFrom_of_entries {text : String} {doc : Document} {catalog : Catalog}
    (hread : Document.read text = .ok doc) (hentries : doc.entries = .ok catalog.classes)
    (hns : catalog.namespaces = doc.namespaces) : catalog.LoadedFrom text := by
  obtain ⟨hdeclared, hempty, hnodup, hgood⟩ := Document.read_eq_ok hread
  obtain ⟨rows, hrows, hpairs⟩ := Document.entries_described hentries hns
  rw [← hns] at hdeclared hempty hnodup hgood
  obtain ⟨⟨hdistinct, hshaped⟩, hkeys⟩ := mergeRows_eq_ok hgood hrows
  have hlabels : 0 < catalog.namespaces.size := List.length_pos_iff.2 hdeclared
  have hnames : List.Forall₂ (fun r c => ClassEntry.names c = ClassRow.names r)
      rows catalog.classes := hpairs.imp fun _ _ hrc => hrc.1
  -- every member is described from a shaped row of its class
  have hrow : ∀ c ∈ catalog.classes, ∀ kind, ∀ m ∈ c.members kind, ∃ row,
      row.Shaped catalog.namespaces.size ∧ Declares text kind row ∧ m.Renders catalog row
        ∧ m.descriptors.length = catalog.namespaces.size := by
    intro c hc kind m hm
    obtain ⟨r, hr, -, hmembers⟩ := Outcome.exists_source hpairs hc
    obtain ⟨row, hrow, hdescribe⟩ := Outcome.exists_source (hmembers kind) hm
    obtain ⟨hshape, hdeclares⟩ := (hshaped r hr).members kind row hrow
    exact ⟨row, hshape, hdeclares, Member.renders_of_describe hlabels hdescribe⟩
  refine ⟨hdeclared, hempty, hnodup, ?_, ?_, ?_, ?_, ?_⟩
  · intro c hc
    obtain ⟨r, hr, hcr, -⟩ := Outcome.exists_source hpairs hc
    exact hcr ▸ (hshaped r hr).names
  · intro c hc kind m hm
    obtain ⟨row, hshape, -, hrenders, hlen⟩ := hrow c hc kind m hm
    refine ⟨hrenders.names ▸ hshape.names, hlen, fun hmem => ?_⟩
    obtain ⟨i, hi, hat⟩ := List.mem_iff_getElem.1 hmem
    have hne := Descriptor.renameClasses_ne_empty (hrenders.renamed i (hlen ▸ hi))
      hshape.descriptor
    rw [Member.descriptor, List.getD_eq_getElem _ _ hi] at hne
    exact hne hat
  · have hfirst : rows.map ClassRow.firstName = catalog.classes.map (·.name 0) := by
      refine Outcome.map_eq_map (hnames.imp fun r c hrc => ?_)
      rw [ClassRow.firstName, ClassEntry.name, hrc, names_getD_zero]
    exact hfirst ▸ hdistinct
  · intro c hc kind
    obtain ⟨r, hr, -, hmembers⟩ := Outcome.exists_source hpairs hc
    have hkey : (r.members kind).map MemberRow.key = (c.members kind).map (·.key 0) := by
      refine Outcome.map_eq_map ((hmembers kind).imp fun row m hdescribe => ?_)
      have hrenders := (Member.renders_of_describe hlabels hdescribe).1
      rw [MemberRow.key, Member.key, hrenders.literal, Member.name, hrenders.names,
        names_getD_zero, MemberRow.firstName]
    exact hkey ▸ hkeys r hr kind
  · intro c hc kind m hm
    obtain ⟨row, -, hdeclares, hrenders, -⟩ := hrow c hc kind m hm
    exact ⟨row, hdeclares, hrenders⟩

/-- A catalog is loaded when the rows of the text are read and give its classes. -/
theorem Catalog.load_eq_ok_iff {text : String} {catalog : Catalog} :
    load text = .ok catalog
      ↔ ∃ doc, Document.read text = .ok doc ∧ doc.entries = .ok catalog.classes
          ∧ catalog.format = doc.format ∧ catalog.namespaces = doc.namespaces
          ∧ catalog.fingerprint = Digest.fingerprintOf text := by
  constructor
  · intro h
    obtain ⟨doc, hread, h⟩ := Outcome.bind_eq_ok.1 h
    obtain ⟨classes, hentries, h⟩ := Outcome.bind_eq_ok.1 h
    cases h
    exact ⟨doc, hread, hentries, rfl, rfl, rfl⟩
  · rintro ⟨doc, hread, hentries, hformat, hns, hfingerprint⟩
    obtain ⟨format, namespaces, classes, fingerprint⟩ := catalog
    dsimp only at hentries hformat hns hfingerprint
    refine Outcome.bind_eq_ok.2 ⟨doc, hread, Outcome.bind_eq_ok.2 ⟨classes, hentries, ?_⟩⟩
    rw [hformat, hns, hfingerprint]
    rfl

/-- **Every loaded catalog has the shape.** The labels are there, not empty, and differ;
    classes and members have one name per label and members one descriptor per label, none of
    them empty; classes differ in their first names, members of one kind in a class in first
    name and first descriptor; and every member renders a declared row, whose descriptor stands
    in the first namespace as it is and in the others with the classes renamed. A label that
    resolves therefore points into every list of names and of descriptors. -/
theorem Catalog.load_shape {text : String} {catalog : Catalog} (h : load text = .ok catalog) :
    catalog.LoadedFrom text
      ∧ ∀ label i, catalog.resolve label = .ok i → ∀ c ∈ catalog.classes,
          i < c.names.length
            ∧ ∀ kind, ∀ m ∈ c.members kind, i < m.names.length ∧ i < m.descriptors.length := by
  obtain ⟨doc, hread, h⟩ := Outcome.bind_eq_ok.1 h
  obtain ⟨classes, hentries, h⟩ := Outcome.bind_eq_ok.1 h
  cases h
  have hloaded : LoadedFrom text
      { format := doc.format, namespaces := doc.namespaces, classes
        fingerprint := Digest.fingerprintOf text } := loadedFrom_of_entries hread hentries rfl
  refine ⟨hloaded, fun label i hi c hc => ?_⟩
  have hlt := Namespaces.resolve_lt hi
  refine ⟨(hloaded.classes c hc).1 ▸ hlt, fun kind m hm => ?_⟩
  have hfull := hloaded.members c hc kind m hm
  exact ⟨hfull.names.1 ▸ hlt, hfull.descriptors.1 ▸ hlt⟩

/-- A nested document with escaped names and a field whose descriptor mentions its class. -/
theorem Catalog.load_shape_escaped_names :
    ∃ catalog,
      load "tiny\t2\t0\ta\tb\n\tescaped-names\nc\tx\tP\n\tf\tLx;\tn\\\\t\tm\n" = .ok catalog
      ∧ catalog.classes = [⟨["x", "P"], [⟨["n\\t", "m"], ["Lx;", "LP;"]⟩], []⟩]
      ∧ catalog.LoadedFrom
          "tiny\t2\t0\ta\tb\n\tescaped-names\nc\tx\tP\n\tf\tLx;\tn\\\\t\tm\n" := by
  have hload : load "tiny\t2\t0\ta\tb\n\tescaped-names\nc\tx\tP\n\tf\tLx;\tn\\\\t\tm\n" = .ok {
      format := .tinyV2
      namespaces := ⟨["a", "b"]⟩
      classes := [⟨["x", "P"], [⟨["n\\t", "m"], ["Lx;", "LP;"]⟩], []⟩]
      fingerprint := Digest.fingerprintOf
        "tiny\t2\t0\ta\tb\n\tescaped-names\nc\tx\tP\n\tf\tLx;\tn\\\\t\tm\n" } := rfl
  exact ⟨_, hload, rfl, (load_shape hload).1⟩

end Nomenclator.Naming
