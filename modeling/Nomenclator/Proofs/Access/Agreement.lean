import Nomenclator.Proofs.Access.Transfer
import Nomenclator.Proofs.Naming.Projection

/-! # Agreement — overrides go where the rename table goes

    A transfer looks members up in a flat table of whole identities, a rename table in
    one table per class.  Both are filled from the same classes in the same order, so
    the last member with an identity is the same for both (`map_snd_declared`).

    The owner is another matter: the transfer takes it from the class of that last
    member, the rename table from the last class of the name.  Where class names
    differ there is only one class of a name, and the two agree. -/

namespace Nomenclator

/-- The key of a member inside its owner. -/
def MemberRef.key (m : MemberRef) : MemberKey := { name := m.name, descriptor := m.descriptor }

namespace Access

open Naming (Catalog ClassEntry Member RenameTable classIdsIn namedIn withKey)

/-- A transfer and a rename table say the same about classes and declared members. -/
structure Agree (direction : Direction) (t : Transfer) (table : RenameTable) : Prop where
  classes : ∀ name target, t.className name = .ok target ↔ table.className? name = some target
  unresolved : ∀ name,
    t.className name = .error (.unresolved name direction.source direction.dest)
      ↔ table.className? name = none
  declared : ∀ kind m, ((t.members kind).get? m).isSome
    ↔ (table.memberName? kind m.owner m.key).isSome
  members : ∀ kind m target, (t.members kind).get? m = some target →
    table.memberName? kind m.owner m.key = some target.name
      ∧ table.className? m.owner = some target.owner

section

variable {catalog : Catalog} {source dest : Nat}

/-- A member has an identity if its class has the owner's name and it has the key. -/
theorem memberRef_eq_iff (c : ClassEntry) (member : Member) (ns : Nat) (m : MemberRef) :
    Transfer.memberRef c member ns = m ↔ c.name ns = m.owner ∧ member.key ns = m.key := by
  obtain ⟨owner, name, descriptor⟩ := m
  simp only [Transfer.memberRef, Naming.Member.key, MemberRef.key, MemberRef.mk.injEq,
    MemberKey.mk.injEq]

/-- **The two tables look at the same members**: those that are declared with an identity are
    those that the classes of the owner's name have under the key, in the same order. -/
theorem map_snd_declared (kind : MemberKind) (m : MemberRef) :
    ((declared catalog kind).filter fun e => Transfer.memberRef e.1 e.2 source = m).map Prod.snd
      = withKey source kind m.owner m.key catalog.classes := by
  rw [declared]
  induction catalog.classes with
  | nil => rfl
  | cons c later ih =>
      rw [List.flatMap_cons, List.filter_append, List.map_append, ih, Naming.withKey_cons,
        List.filter_map, List.map_map]
      refine congrArg (· ++ _) ?_
      show ((c.members kind).filter fun member => Transfer.memberRef c member source = m).map id = _
      rw [List.map_id]
      by_cases howner : c.name source = m.owner
      · rw [if_pos howner]
        refine List.filter_congr fun member _ => decide_eq_decide.2 ?_
        rw [memberRef_eq_iff, and_iff_right howner]
      · rw [if_neg howner]
        refine List.filter_eq_nil_iff.2 fun member _ heq => howner ?_
        exact ((memberRef_eq_iff c member source m).1 (of_decide_eq_true heq)).1

/-- A declared image is the image of the last member that the rename table looks at. -/
theorem declaredImage?_eq_some {kind : MemberKind} {m target : MemberRef}
    (h : declaredImage? catalog source dest kind m = some target) :
    ∃ c ∈ catalog.classes, ∃ member, c.name source = m.owner
      ∧ (withKey source kind m.owner m.key catalog.classes).getLast? = some member
      ∧ target = Transfer.memberRef c member dest := by
  obtain ⟨⟨c, member⟩, hlast, rfl⟩ := Option.map_eq_some_iff.1 h
  obtain ⟨hdeclared, hidentity⟩ := List.mem_filter.1 (List.mem_of_getLast? hlast)
  obtain ⟨d, hd, hpair⟩ := List.mem_flatMap.1 hdeclared
  obtain ⟨_, -, heq⟩ := List.mem_map.1 hpair
  obtain rfl := (Prod.mk.inj heq).1
  refine ⟨d, hd, member, ?_, ?_, rfl⟩
  · exact ((memberRef_eq_iff d member source m).1 (of_decide_eq_true hidentity)).1
  · rw [← map_snd_declared, List.getLast?_map, hlast]
    rfl

theorem isSome_declaredImage?_iff (kind : MemberKind) (m : MemberRef) :
    (declaredImage? catalog source dest kind m).isSome
      ↔ ((withKey source kind m.owner m.key catalog.classes).getLast?).isSome := by
  rw [declaredImage?, Option.isSome_map, ← map_snd_declared, List.getLast?_map, Option.isSome_map]

/-- A transfer that knows the images of a catalog agrees with the catalog's projection, if
    classes differ in their names. -/
theorem Transfer.Knows.agree {t : Transfer} {table : RenameTable}
    (h : t.Knows catalog source dest)
    (htable : RenameTable.Projects catalog source dest table)
    (hdistinct : (classIdsIn source catalog.classes).Nodup) : Agree t.direction t table := by
  have hclass : ∀ name, table.className? name = classImage? catalog source dest name :=
    htable.classes
  refine ⟨fun name target => ?_, fun name => ?_, fun kind m => ?_, fun kind m target hget => ?_⟩
  · rw [hclass, Transfer.className_eq_ok_iff h]
  · rw [hclass, Transfer.className, h.classes]
    cases classImage? catalog source dest name with
    | none => exact ⟨fun _ => rfl, fun _ => rfl⟩
    | some target =>
        constructor
        · intro herror
          cases herror
        · intro hnone
          cases hnone
  · rw [h.members, isSome_declaredImage?_iff, htable.members, Option.isSome_map]
  · rw [h.members] at hget
    obtain ⟨c, hc, member, howner, hlast, rfl⟩ := declaredImage?_eq_some hget
    constructor
    · rw [htable.members, hlast]
      rfl
    · rw [← howner, htable.classes, Naming.namedIn_of_nodup hdistinct hc]
      rfl

end

/-- **Overrides and names are transferred alike.** In the first namespace of a loaded catalog
    class names differ. From a namespace in which they do, the transfer and the rename table
    agree: a class goes to its name in the table, and is unresolved exactly if the table does
    not have it; a member is declared exactly if the table has it, and then it goes to its name
    in the table, in the class to which its owner goes. -/
theorem Transfer.agrees_with_renameTable {text : String} {catalog : Catalog}
    (hload : Catalog.load text = .ok catalog) (direction : Direction) {source dest : Nat}
    (hsource : catalog.resolve direction.source = .ok source)
    (hdest : catalog.resolve direction.dest = .ok dest) :
    ∃ t table, Transfer.ofCatalog catalog direction = .ok t
      ∧ RenameTable.ofCatalog catalog direction = .ok table
      ∧ (catalog.namespaces.labels.head? = some direction.source →
          (classIdsIn source catalog.classes).Nodup)
      ∧ ((classIdsIn source catalog.classes).Nodup → Agree direction t table) := by
  refine ⟨_, _, Transfer.ofCatalog_eq_ok hsource hdest, RenameTable.ofCatalog_eq_ok hsource hdest,
    fun hfirst => ?_, fun hdistinct => ?_⟩
  · obtain rfl := Naming.Namespaces.resolve_first hfirst hsource
    exact (Catalog.loadedFrom_of_load hload).distinctIdentities.ofClasses
  · exact (knows_tables direction).agree (RenameTable.projects_enterAll ..) hdistinct

/-- From the last of three namespaces, in which class names differ, though field names do
    not. -/
theorem Transfer.agrees_with_renameTable_third :
    ∃ catalog, Catalog.load
        "v1\to\ti\tn\nCLASS\ta\tc1\tBox\nCLASS\tb\tc1\tLid\nFIELD\ta\tI\tb\tf1\tx\nFIELD\ta\tI\tc\tf2\tx\n"
          = .ok catalog
      ∧ (classIdsIn 2 catalog.classes).Nodup
      ∧ ∃ t table, Transfer.ofCatalog catalog ⟨"n", "i"⟩ = .ok t
        ∧ RenameTable.ofCatalog catalog ⟨"n", "i"⟩ = .ok table
        ∧ Agree ⟨"n", "i"⟩ t table
        ∧ t.className "Lid" = .ok "c1"
        ∧ t.className "Bag" = .error (.unresolved "Bag" "n" "i")
        ∧ (t.members .field).get? ⟨"Box", "x", "I"⟩ = some ⟨"c1", "f2", "I"⟩
        ∧ table.memberName? .field "Box" ⟨"x", "I"⟩ = some "f2" := by
  let catalog : Catalog :=
    { format := .tinyV1
      namespaces := ⟨["o", "i", "n"]⟩
      classes := [⟨["a", "c1", "Box"],
          [⟨["b", "f1", "x"], ["I", "I", "I"]⟩, ⟨["c", "f2", "x"], ["I", "I", "I"]⟩], []⟩,
        ⟨["b", "c1", "Lid"], [], []⟩]
      fingerprint := Digest.fingerprintOf
        "v1\to\ti\tn\nCLASS\ta\tc1\tBox\nCLASS\tb\tc1\tLid\nFIELD\ta\tI\tb\tf1\tx\nFIELD\ta\tI\tc\tf2\tx\n" }
  have hload : Catalog.load
      "v1\to\ti\tn\nCLASS\ta\tc1\tBox\nCLASS\tb\tc1\tLid\nFIELD\ta\tI\tb\tf1\tx\nFIELD\ta\tI\tc\tf2\tx\n"
        = .ok catalog := rfl
  have hn : catalog.resolve "n" = .ok 2 := rfl
  have hi : catalog.resolve "i" = .ok 1 := rfl
  have hdistinct : (classIdsIn 2 catalog.classes).Nodup := by decide
  obtain ⟨t, table, ht, htable, -, hagree⟩ :=
    agrees_with_renameTable hload ⟨"n", "i"⟩ hn hi
  have hagree := hagree hdistinct
  have hlid : table.className? "Lid" = some "c1" := by
    cases htable
    rfl
  have hbag : table.className? "Bag" = none := by
    cases htable
    rfl
  have hbox : (t.members .field).get? ⟨"Box", "x", "I"⟩ = some ⟨"c1", "f2", "I"⟩ := by
    cases ht
    rfl
  exact ⟨catalog, hload, hdistinct, t, table, ht, htable, hagree,
    (hagree.classes _ _).2 hlid, (hagree.unresolved _).2 hbag, hbox,
    (hagree.members _ _ _ hbox).1⟩

end Access

end Nomenclator
