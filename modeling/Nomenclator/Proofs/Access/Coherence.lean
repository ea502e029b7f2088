import Nomenclator.Proofs.Access.Transfer
import Nomenclator.Proofs.Naming.DescriptorLaws
import Nomenclator.Proofs.Naming.Projection

/-! # Coherence — one descriptor by two ways

    A catalog derives every descriptor from the first namespace.  A transfer knows
    nothing of that: a member that it does not find keeps its name, and its
    descriptor is renamed straight from one namespace to the other.

    * **The detour** — what stands in a namespace is the declared descriptor, renamed;
      to rename it further is to rename the declared one by two tables in a row
      (`followedBy`), which do to a mentioned class what the direct table does;
    * **Capture** — that fails for a mentioned name which is not declared, if another
      class has it in between (`Faithful`);
    * **Members** — so a declared member goes to the same descriptor whether a
      transfer finds it or not. -/

namespace Nomenclator

namespace Naming

/-- A namespace through which descriptors can be renamed. Class names differ there and hold no
    `;`, and a class that a declared descriptor mentions is a class of the catalog, or none of
    the catalog is called so there. -/
structure Catalog.Faithful (catalog : Catalog) (ns : Nat) : Prop where
  names : ∀ c ∈ catalog.classes, ';' ∉ (c.name ns).toList
  distinct : (classIdsIn ns catalog.classes).Nodup
  uncaptured : ∀ c ∈ catalog.classes, ∀ kind, ∀ m ∈ c.members kind, ∀ mentioned,
    Descriptor.references (m.descriptor 0) = .ok mentioned → ∀ name ∈ mentioned,
      (∃ d ∈ catalog.classes, d.name 0 = name) ∨ ∀ d ∈ catalog.classes, d.name ns ≠ name

section Detour

variable {text : String} {catalog : Catalog} {source dest : Nat}

/-- Where class names differ, the table gives a class its own name. -/
theorem Catalog.get?_classNames (h : (classIdsIn source catalog.classes).Nodup) {c : ClassEntry}
    (hc : c ∈ catalog.classes) :
    (catalog.classNames source dest).get? (c.name source) = some (c.name dest) := by
  rw [classNames, SortedMap.get?_ofList_map, filter_eq_singleton h hc]
  rfl

theorem Catalog.get?_classNames_eq_none {name : String}
    (h : ∀ c ∈ catalog.classes, c.name source ≠ name) :
    (catalog.classNames source dest).get? name = none := by
  rw [classNames, SortedMap.get?_ofList_map, List.filter_eq_nil_iff.2]
  · rfl
  · exact fun c hc heq => h c hc (of_decide_eq_true heq)

/-- A catalog that was loaded has a name for every class in every namespace. -/
theorem Catalog.LoadedFrom.name_ne_empty (h : catalog.LoadedFrom text)
    (hsource : source < catalog.namespaces.size) {c : ClassEntry} (hc : c ∈ catalog.classes) :
    c.name source ≠ "" := by
  obtain ⟨hlength, hne⟩ := h.classes c hc
  have hlt : source < c.names.length := hlength ▸ hsource
  rw [ClassEntry.name, List.getD_eq_getElem _ _ hlt]
  exact fun hempty => hne (hempty ▸ List.getElem_mem hlt)

/-- The names of a faithful namespace can stand in a descriptor. -/
theorem Catalog.Faithful.nameable (hfaithful : catalog.Faithful source)
    (hloaded : catalog.LoadedFrom text) (hsource : source < catalog.namespaces.size) :
    Descriptor.Nameable (catalog.classNames 0 source).get? := by
  intro name new hnew
  rw [classNames, SortedMap.get?_ofList_map] at hnew
  obtain ⟨c, hlast, rfl⟩ := Option.map_eq_some_iff.1 hnew
  have hc : c ∈ catalog.classes := (List.mem_filter.1 (List.mem_of_getLast? hlast)).1
  exact ⟨hloaded.name_ne_empty hsource hc, hfaithful.names c hc⟩

/-- **The detour does to a class what the direct way does**, if the class is not captured. -/
theorem Catalog.renamed_detour (hloaded : catalog.LoadedFrom text)
    (hdistinct : (classIdsIn source catalog.classes).Nodup) {name : String}
    (h : (∃ c ∈ catalog.classes, c.name 0 = name) ∨ ∀ c ∈ catalog.classes, c.name source ≠ name) :
    Descriptor.renamed (Descriptor.followedBy (catalog.classNames 0 source).get?
        (catalog.classNames source dest).get?) name
      = Descriptor.renamed (catalog.classNames 0 dest).get? name := by
  rw [Descriptor.renamed_followedBy]
  simp only [Descriptor.renamed]
  by_cases hdeclared : ∃ c ∈ catalog.classes, c.name 0 = name
  · obtain ⟨c, hc, rfl⟩ := hdeclared
    rw [get?_classNames hloaded.classNames hc, get?_classNames hloaded.classNames hc,
      Option.getD_some, get?_classNames hdistinct hc]
    rfl
  · -- a name that the first table keeps meets the second table as it is
    have hnone : ∀ c ∈ catalog.classes, c.name 0 ≠ name := fun c hc heq => hdeclared ⟨c, hc, heq⟩
    rw [get?_classNames_eq_none hnone, get?_classNames_eq_none hnone, Option.getD_none,
      get?_classNames_eq_none (h.resolve_left hdeclared)]
    rfl

/-- **Descriptors are coherent.** The descriptor of a member in a faithful namespace is renamed to
    the one that the catalog derives for another namespace. -/
theorem Catalog.Faithful.renameDescriptor (hfaithful : catalog.Faithful source)
    (hloaded : catalog.LoadedFrom text) (hsource : source < catalog.namespaces.size)
    (hdest : dest < catalog.namespaces.size) {c : ClassEntry} (hc : c ∈ catalog.classes)
    {kind : MemberKind} {m : Member} (hm : m ∈ c.members kind) :
    Naming.renameDescriptor (catalog.classNames source dest) (m.descriptor source)
      = .ok (m.descriptor dest) := by
  obtain ⟨row, -, hrenders⟩ := hloaded.rows c hc kind m hm
  have hhere := hrenders.renamed source hsource
  have hthere := hrenders.renamed dest hdest
  have hnameable := hfaithful.nameable hloaded hsource
  obtain ⟨mentioned, hmentioned, -⟩ := Descriptor.references_renameClasses hnameable hhere
  have hnames : ∀ name ∈ mentioned,
      (∃ d ∈ catalog.classes, d.name 0 = name) ∨ ∀ d ∈ catalog.classes, d.name source ≠ name :=
    hfaithful.uncaptured c hc kind m hm mentioned (hrenders.literal ▸ hmentioned)
  rw [Naming.renameDescriptor, Outcome.mapError_eq_ok,
    Descriptor.renameClasses_renameClasses hnameable hhere,
    Descriptor.renameClasses_congr hmentioned fun name hname =>
      renamed_detour hloaded hfaithful.distinct (hnames name hname)]
  exact hthere

end Detour

end Naming

namespace Access

open Naming (Catalog ClassEntry Member classIdsIn)

variable {catalog : Catalog} {source dest : Nat}

/-- What a declared member goes to is the same member of the same class. -/
theorem exists_declared_of_image {kind : MemberKind} {m target : MemberRef}
    (h : declaredImage? catalog source dest kind m = some target) :
    ∃ c ∈ catalog.classes, ∃ member ∈ c.members kind,
      Transfer.memberRef c member source = m ∧ Transfer.memberRef c member dest = target := by
  obtain ⟨⟨c, member⟩, hlast, rfl⟩ := Option.map_eq_some_iff.1 h
  obtain ⟨hdeclared, hidentity⟩ := List.mem_filter.1 (List.mem_of_getLast? hlast)
  obtain ⟨d, hd, hpair⟩ := List.mem_flatMap.1 hdeclared
  obtain ⟨member', hmember, heq⟩ := List.mem_map.1 hpair
  obtain ⟨rfl, rfl⟩ := Prod.mk.inj heq
  exact ⟨_, hd, _, hmember, of_decide_eq_true hidentity, rfl⟩

namespace Transfer

/-- The transfer that finds no member, so that all of them go the general way. -/
def withoutMembers (t : Transfer) : Transfer := { t with fields := .empty, methods := .empty }

/-- The general way of a member: the name stays, the owner and the descriptor are renamed. -/
theorem member_withoutMembers (t : Transfer) (kind : MemberKind) {m : MemberRef}
    {owner descriptor : String} (howner : t.classes.get? m.owner = some owner)
    (hdescriptor : Naming.renameDescriptor t.classes m.descriptor = .ok descriptor) :
    t.withoutMembers.member kind m = .ok { owner, name := m.name, descriptor } := by
  have hnone : (t.withoutMembers.members kind).get? m = none := by cases kind <;> rfl
  have hclass : t.withoutMembers.className m.owner = .ok owner := by
    rw [className, show t.withoutMembers.classes = t.classes from rfl, howner]
  rw [member, hnone]
  refine Outcome.bind_eq_ok.2 ⟨owner, hclass, Outcome.bind_eq_ok.2 ⟨descriptor, ?_, rfl⟩⟩
  exact Outcome.mapError_eq_ok.2 hdescriptor

end Transfer

/-- **Coherent descriptors.** Let the classes of a loaded catalog have names that differ and hold
    no `;` in a declared namespace, and let no class be called there like a class that a declared
    descriptor mentions and that the catalog does not know. Then the descriptor of every field
    and method in this namespace is renamed to its descriptor in any other. So a transfer from
    this namespace takes a declared member to the same owner and descriptor, whether it finds
    the member or not. -/
theorem Transfer.descriptors_coherent {text : String} {catalog : Catalog}
    (hload : Catalog.load text = .ok catalog) (direction : Direction) {source dest : Nat}
    (hsource : catalog.resolve direction.source = .ok source)
    (hdest : catalog.resolve direction.dest = .ok dest) (hfaithful : catalog.Faithful source) :
    (∀ c ∈ catalog.classes, ∀ kind, ∀ m ∈ c.members kind,
        Naming.renameDescriptor (catalog.classNames source dest) (m.descriptor source)
          = .ok (m.descriptor dest))
      ∧ ∃ t, Transfer.ofCatalog catalog direction = .ok t
        ∧ ∀ kind m target, (t.members kind).get? m = some target →
            t.member kind m = .ok target
              ∧ t.withoutMembers.member kind m = .ok { target with name := m.name } := by
  have hloaded := Catalog.loadedFrom_of_load hload
  have hcoherent : ∀ c ∈ catalog.classes, ∀ kind, ∀ m ∈ c.members kind,
      Naming.renameDescriptor (catalog.classNames source dest) (m.descriptor source)
        = .ok (m.descriptor dest) := fun c hc kind m hm =>
    hfaithful.renameDescriptor hloaded (Naming.Namespaces.resolve_lt hsource)
      (Naming.Namespaces.resolve_lt hdest) hc hm
  refine ⟨hcoherent, _, Transfer.ofCatalog_eq_ok hsource hdest, fun kind m target hget => ?_⟩
  have himage := hget
  rw [(knows_tables direction).members] at himage
  obtain ⟨c, hc, member, hmember, rfl, rfl⟩ := exists_declared_of_image himage
  constructor
  · rw [Transfer.member, hget]
  · exact Transfer.member_withoutMembers _ kind (Catalog.get?_classNames hfaithful.distinct hc)
      (hcoherent c hc kind member hmember)

/-- From the second of three namespaces, where one class has the first name of another, to the
    third, where both have one name. -/
theorem Transfer.descriptors_coherent_crossed :
    ∃ catalog, Catalog.load
        "v1\to\ti\tn\nCLASS\ta\tLb\tBox\nCLASS\tb\ta\tBox\nMETHOD\ta\t(La;[Lb;Lx/Y;)V\tp\tm\tput\n"
          = .ok catalog
      ∧ catalog.Faithful 1
      ∧ Naming.renameDescriptor (catalog.classNames 1 2) "(LLb;[La;Lx/Y;)V"
          = .ok "(LBox;[LBox;Lx/Y;)V"
      ∧ ∃ t, Transfer.ofCatalog catalog ⟨"i", "n"⟩ = .ok t
        ∧ t.member .method ⟨"Lb", "m", "(LLb;[La;Lx/Y;)V"⟩
            = .ok ⟨"Box", "put", "(LBox;[LBox;Lx/Y;)V"⟩
        ∧ t.withoutMembers.member .method ⟨"Lb", "m", "(LLb;[La;Lx/Y;)V"⟩
            = .ok ⟨"Box", "m", "(LBox;[LBox;Lx/Y;)V"⟩ := by
  let rows : String :=
    "v1\to\ti\tn\nCLASS\ta\tLb\tBox\nCLASS\tb\ta\tBox\nMETHOD\ta\t(La;[Lb;Lx/Y;)V\tp\tm\tput\n"
  let put : Member :=
    ⟨["p", "m", "put"], ["(La;[Lb;Lx/Y;)V", "(LLb;[La;Lx/Y;)V", "(LBox;[LBox;Lx/Y;)V"]⟩
  let catalog : Catalog :=
    { format := .tinyV1
      namespaces := ⟨["o", "i", "n"]⟩
      classes := [⟨["a", "Lb", "Box"], [], [put]⟩, ⟨["b", "a", "Box"], [], []⟩]
      fingerprint := Digest.fingerprintOf rows }
  have hload : Catalog.load rows = .ok catalog := by decide +kernel
  have hi : catalog.resolve "i" = .ok 1 := rfl
  have hn : catalog.resolve "n" = .ok 2 := rfl
  have hfaithful : catalog.Faithful 1 := by
    refine ⟨by decide, by decide, fun c hc kind m hm mentioned hmentioned => ?_⟩
    have hput : m = put := by
      rcases List.mem_pair.1 hc with rfl | rfl <;> cases kind
      · exact nomatch hm
      · exact List.mem_singleton.1 hm
      · exact nomatch hm
      · exact nomatch hm
    have hnames : Descriptor.references (put.descriptor 0) = .ok ["a", "b", "x/Y"] := by
      decide +kernel
    obtain rfl := hput
    obtain rfl := Except.ok.inj (hnames.symm.trans hmentioned)
    decide
  obtain ⟨hcoherent, t, ht, hmembers⟩ :=
    Transfer.descriptors_coherent hload ⟨"i", "n"⟩ hi hn hfaithful
  have hget : (t.members .method).get? ⟨"Lb", "m", "(LLb;[La;Lx/Y;)V"⟩
      = some ⟨"Box", "put", "(LBox;[LBox;Lx/Y;)V"⟩ := by
    cases ht
    decide +kernel
  obtain ⟨hfound, hgeneral⟩ := hmembers _ _ _ hget
  exact ⟨catalog, hload, hfaithful,
    hcoherent _ List.mem_cons_self .method put List.mem_cons_self, t, ht, hfound, hgeneral⟩

end Access

end Nomenclator
