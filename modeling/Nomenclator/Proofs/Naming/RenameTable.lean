import Mathlib.Data.List.Dedup
import Nomenclator.Naming.RenameTable
import Nomenclator.Proofs.Outcome
import Nomenclator.Proofs.SortedMap

/-! # Rename tables — what entering a list of classes means

    A table is filled class by class, each time first the class itself, then its
    fields, then its methods.  This file says what such a table holds:

    * the two primitive steps `setClass` and `setMember` are described by the two
      questions that can be asked of a table, `className?` and `memberName?`;
    * `enter` is one class with all its members, for ANY choice of target names;
      a table made by `enter` answers with the target of the LAST class, or
      member, of the document that has the identity asked for;
    * `entryCount` is the number of DISTINCT identities that were entered. -/

namespace Nomenclator.Naming

/-- The members of one kind, in document order. -/
def membersIn (kind : MemberKind) (classes : List ClassEntry) : List Member :=
  classes.flatMap fun c => c.members kind

/-- The classes that have a name, in the namespace at a position. -/
def namedIn (ns : Nat) (name : String) (classes : List ClassEntry) : List ClassEntry :=
  classes.filter fun c => c.name ns = name

/-- The members of one kind that have an identity: the name of the class, and the member's
    key, both in the namespace at a position. -/
def withKey (ns : Nat) (kind : MemberKind) (owner : String) (key : MemberKey)
    (classes : List ClassEntry) : List Member :=
  (membersIn kind (namedIn ns owner classes)).filter fun m => m.key ns = key

theorem namedIn_cons (ns : Nat) (name : String) (c : ClassEntry) (classes : List ClassEntry) :
    namedIn ns name (c :: classes)
      = (if c.name ns = name then [c] else []) ++ namedIn ns name classes := by
  rw [namedIn]
  by_cases h : c.name ns = name
  · rw [List.filter_cons_of_pos (by simpa using h), if_pos h]
    rfl
  · rw [List.filter_cons_of_neg (by simpa using h), if_neg h]
    rfl

theorem withKey_cons (ns : Nat) (kind : MemberKind) (owner : String) (key : MemberKey)
    (c : ClassEntry) (classes : List ClassEntry) :
    withKey ns kind owner key (c :: classes)
      = (if c.name ns = owner then (c.members kind).filter fun m => m.key ns = key else [])
        ++ withKey ns kind owner key classes := by
  rw [withKey]
  rw [namedIn_cons, membersIn, List.flatMap_append, List.filter_append]
  by_cases h : c.name ns = owner
  · rw [if_pos h, if_pos h, List.flatMap_singleton]
    rfl
  · rw [if_neg h, if_neg h]
    rfl

namespace RenameTable

-- ── The two primitive steps ──────────────────────────────────────────────────

/-- Setting a class changes the answer for that class only. -/
theorem className?_setClass (table : RenameTable) (name target k : String) :
    (table.setClass name target).className? k
      = if k = name then some target else table.className? k := by
  simp only [setClass, className?, SortedMap.get?_insert]
  by_cases hk : k = name
  · rw [if_pos hk, if_pos hk]
    cases table.classes.get? name <;> rfl
  · rw [if_neg hk, if_neg hk]

/-- Setting a class keeps all members. -/
theorem memberName?_setClass (table : RenameTable) (name target : String) (kind : MemberKind)
    (k : String) (key : MemberKey) :
    (table.setClass name target).memberName? kind k key = table.memberName? kind k key := by
  simp only [setClass, memberName?, SortedMap.get?_insert]
  by_cases hk : k = name
  · subst hk
    rw [if_pos rfl]
    cases table.classes.get? k <;> cases kind <;> rfl
  · rw [if_neg hk]

/-- A member that is set for a class of the table leaves all class names as they are. -/
theorem className?_setMember (table : RenameTable) (kind : MemberKind) (owner : String)
    (key : MemberKey) (target : String) (h : (table.className? owner).isSome) (k : String) :
    (table.setMember kind owner key target).className? k = table.className? k := by
  simp only [setMember, className?, SortedMap.get?_insert] at h ⊢
  by_cases hk : k = owner
  · subst hk
    rw [if_pos rfl]
    cases hc : table.classes.get? k with
    | none => rw [hc] at h; exact nomatch h
    | some c => cases kind <;> rfl
  · rw [if_neg hk]

theorem members_insert (c : ClassRename) (kind other : MemberKind) (key key' : MemberKey)
    (target : String) :
    ((c.insert kind key target).members other).get? key'
      = if other = kind ∧ key' = key then some target else (c.members other).get? key' := by
  cases kind <;> cases other <;>
    simp [ClassRename.insert, ClassRename.members, SortedMap.get?_insert]

/-- Setting a member changes the answer for that member only. -/
theorem memberName?_setMember (table : RenameTable) (kind other : MemberKind)
    (owner k : String) (key key' : MemberKey) (target : String) :
    (table.setMember kind owner key target).memberName? other k key'
      = if k = owner ∧ other = kind ∧ key' = key then some target
        else table.memberName? other k key' := by
  simp only [setMember, memberName?, SortedMap.get?_insert]
  by_cases hk : k = owner
  · subst hk
    rw [if_pos rfl, Option.bind_some, members_insert]
    simp only [true_and]
    refine if_congr Iff.rfl rfl ?_
    cases table.classes.get? k with
    | none => cases other <;> rfl
    | some c => rfl
  · rw [if_neg hk, if_neg (fun h => hk h.1)]

-- ── Entering classes ─────────────────────────────────────────────────────────

/-- Which target names are entered. -/
structure Targets where
  ofClass : ClassEntry → String
  ofMember : MemberKind → Member → String

/-- Enters members of one class. -/
def enterMembers (ns : Nat) (target : Member → String) (kind : MemberKind) (owner : String)
    (table : RenameTable) (members : List Member) : RenameTable :=
  members.foldl (fun table m => table.setMember kind owner (m.key ns) (target m)) table

/-- Enters a class with its members. -/
def enter (ns : Nat) (targets : Targets) (table : RenameTable) (c : ClassEntry) : RenameTable :=
  let named := table.setClass (c.name ns) (targets.ofClass c)
  let withFields :=
    named.enterMembers ns (targets.ofMember .field) .field (c.name ns) c.fields
  withFields.enterMembers ns (targets.ofMember .method) .method (c.name ns) c.methods

/-- Entering members of a class of the table leaves all class names as they are. -/
theorem className?_enterMembers (ns : Nat) (target : Member → String) (kind : MemberKind)
    (owner : String) (table : RenameTable) (members : List Member)
    (h : (table.className? owner).isSome) (k : String) :
    (table.enterMembers ns target kind owner members).className? k = table.className? k := by
  induction members generalizing table with
  | nil => rfl
  | cons m rest ih =>
      have hstep := className?_setMember table kind owner (m.key ns) (target m) h
      have hrest := ih (table.setMember kind owner (m.key ns) (target m))
        (by rw [hstep owner]; exact h)
      rw [show table.enterMembers ns target kind owner (m :: rest)
        = (table.setMember kind owner (m.key ns) (target m)).enterMembers ns target kind owner rest
        from rfl, hrest, hstep k]

/-- Of the members that are entered, the last with the key counts. -/
theorem memberName?_enterMembers (ns : Nat) (target : Member → String) (kind other : MemberKind)
    (owner k : String) (key : MemberKey) (table : RenameTable) (members : List Member) :
    (table.enterMembers ns target kind owner members).memberName? other k key
      = (((if k = owner ∧ other = kind then members.filter fun m => m.key ns = key
          else []).getLast?).map target).or (table.memberName? other k key) := by
  induction members generalizing table with
  | nil => by_cases h : k = owner ∧ other = kind <;> simp [h, enterMembers]
  | cons m rest ih =>
      rw [show table.enterMembers ns target kind owner (m :: rest)
        = (table.setMember kind owner (m.key ns) (target m)).enterMembers ns target kind owner rest
        from rfl, ih, memberName?_setMember]
      by_cases h : k = owner ∧ other = kind
      · rw [if_pos h, if_pos h]
        by_cases hm : m.key ns = key
        · rw [if_pos ⟨h.1, h.2, hm.symm⟩, List.filter_cons_of_pos (by simpa using hm),
            List.getLast?_cons]
          cases (rest.filter fun m => m.key ns = key).getLast? <;> rfl
        · rw [if_neg (fun e => hm e.2.2.symm), List.filter_cons_of_neg (by simpa using hm)]
      · rw [if_neg h, if_neg h, if_neg (fun e => h ⟨e.1, e.2.1⟩)]

/-- Entering a class sets its name and keeps the names of all others. -/
theorem className?_enter (ns : Nat) (targets : Targets) (table : RenameTable) (c : ClassEntry)
    (k : String) :
    (table.enter ns targets c).className? k
      = if k = c.name ns then some (targets.ofClass c) else table.className? k := by
  have hset := className?_setClass table (c.name ns) (targets.ofClass c)
  have hsome : ((table.setClass (c.name ns) (targets.ofClass c)).className? (c.name ns)).isSome := by
    rw [hset, if_pos rfl]
    rfl
  rw [enter]
  rw [className?_enterMembers, className?_enterMembers _ _ _ _ _ _ hsome, hset]
  rw [className?_enterMembers _ _ _ _ _ _ hsome]
  exact hsome

/-- Entering a class enters its own members and keeps all others. -/
theorem memberName?_enter (ns : Nat) (targets : Targets) (table : RenameTable) (c : ClassEntry)
    (kind : MemberKind) (k : String) (key : MemberKey) :
    (table.enter ns targets c).memberName? kind k key
      = (((if c.name ns = k then (c.members kind).filter fun m => m.key ns = key
          else []).getLast?).map (targets.ofMember kind)).or (table.memberName? kind k key) := by
  rw [enter]
  rw [memberName?_enterMembers, memberName?_enterMembers, memberName?_setClass]
  by_cases hk : c.name ns = k
  · subst hk
    cases kind with
    | field => simp [ClassEntry.members]
    | method => simp [ClassEntry.members]
  · simp [hk, Ne.symm hk]

/-- **The last class with a name counts.** -/
theorem className?_enterAll (ns : Nat) (targets : Targets) (classes : List ClassEntry)
    (table : RenameTable) (k : String) :
    (classes.foldl (enter ns targets) table).className? k
      = (((namedIn ns k classes).getLast?).map targets.ofClass).or (table.className? k) := by
  induction classes generalizing table with
  | nil => rfl
  | cons c rest ih =>
      rw [List.foldl_cons, ih, className?_enter, namedIn_cons]
      by_cases hk : c.name ns = k
      · rw [if_pos hk, if_pos hk.symm, List.getLast?_append]
        cases (namedIn ns k rest).getLast? <;> rfl
      · rw [if_neg hk, if_neg (Ne.symm hk), List.nil_append]

/-- **The last member with an identity counts**, over all classes with the owner's name. -/
theorem memberName?_enterAll (ns : Nat) (targets : Targets) (classes : List ClassEntry)
    (table : RenameTable) (kind : MemberKind) (k : String) (key : MemberKey) :
    (classes.foldl (enter ns targets) table).memberName? kind k key
      = (((withKey ns kind k key classes).getLast?).map (targets.ofMember kind)).or
          (table.memberName? kind k key) := by
  induction classes generalizing table with
  | nil => rfl
  | cons c rest ih =>
      rw [List.foldl_cons, ih, memberName?_enter, withKey_cons, List.getLast?_append]
      cases (withKey ns kind k key rest).getLast? <;> rfl

-- ── Directions ───────────────────────────────────────────────────────────────

theorem direction_addMembers (source dest : Nat) (owner : String) (kind : MemberKind)
    (table : RenameTable) (members : List Member) :
    (table.addMembers source dest owner kind members).direction = table.direction := by
  rw [addMembers]
  induction members generalizing table with
  | nil => rfl
  | cons m later ih => exact ih _

theorem direction_addClass (source dest : Nat) (table : RenameTable) (c : ClassEntry) :
    (table.addClass source dest c).direction = table.direction := by
  rw [addClass, direction_addMembers, direction_addMembers]
  rfl

/-- A table that is read off a catalog is for the direction that was asked for. -/
theorem direction_ofCatalog {catalog : Catalog} {direction : Direction}
    {table : RenameTable} (h : ofCatalog catalog direction = .ok table) :
    table.direction = direction := by
  have hfold : ∀ (source dest : Nat) (classes : List ClassEntry) (table : RenameTable),
      (classes.foldl (addClass source dest) table).direction = table.direction := by
    intro source dest classes
    induction classes with
    | nil => exact fun _ => rfl
    | cons c later ih =>
        intro table
        rw [List.foldl_cons, ih, direction_addClass]
  obtain ⟨source, -, h⟩ := Outcome.bind_eq_ok.1 h
  obtain ⟨dest, -, h⟩ := Outcome.bind_eq_ok.1 h
  rw [← Except.ok.inj h, hfold]

-- ── Counting entries ─────────────────────────────────────────────────────────

/-- The identities of the members of one kind that a table renames. -/
def memberIds (table : RenameTable) (kind : MemberKind) : List (String × MemberKey) :=
  table.classes.toList.flatMap fun e => (e.2.members kind).keys.map fun key => (e.1, key)

/-- A member is among the identities of a table when the table renames it. -/
theorem mem_memberIds_iff (table : RenameTable) (kind : MemberKind) (k : String)
    (key : MemberKey) :
    (k, key) ∈ table.memberIds kind ↔ (table.memberName? kind k key).isSome := by
  rw [memberIds, memberName?]
  rw [List.mem_flatMap]
  constructor
  · rintro ⟨⟨k', c⟩, hc, hmem⟩
    obtain ⟨key', hkey, heq⟩ := List.mem_map.1 hmem
    obtain ⟨rfl, rfl⟩ := Prod.mk.inj heq
    rw [SortedMap.get?_eq_some_iff.2 hc, Option.bind_some]
    exact SortedMap.mem_keys_iff.1 hkey
  · intro h
    cases hc : table.classes.get? k with
    | none => rw [hc] at h; exact nomatch h
    | some c =>
        rw [hc, Option.bind_some] at h
        exact ⟨(k, c), SortedMap.get?_eq_some_iff.1 hc,
          List.mem_map.2 ⟨key, SortedMap.mem_keys_iff.2 h, rfl⟩⟩

/-- No identity is renamed twice. -/
theorem memberIds_nodup (table : RenameTable) (kind : MemberKind) :
    (table.memberIds kind).Nodup := by
  refine List.nodup_flatMap.2 ⟨?_, ?_⟩
  · intro e _
    exact (SortedMap.keys_nodup _).map fun a b h => (Prod.mk.inj h).2
  · refine (List.pairwise_map.1 (SortedMap.keys_nodup table.classes)).imp ?_
    intro a b hne id ha hb
    obtain ⟨_, -, rfl⟩ := List.mem_map.1 ha
    obtain ⟨_, -, heq⟩ := List.mem_map.1 hb
    exact hne (Prod.mk.inj heq).1.symm

/-- The entries are the classes, the fields and the methods. -/
theorem entryCount_eq (table : RenameTable) :
    table.entryCount = table.classes.keys.length + (table.memberIds .field).length
      + (table.memberIds .method).length := by
  rw [entryCount, memberIds, SortedMap.values, SortedMap.keys]
  -- the counter of the fold is generalised, so that the induction can move it on
  suffices h : ∀ (es : List (String × ClassRename)) (n : Nat),
      (es.map Prod.snd).foldl (fun count c => count + 1 + c.fields.size + c.methods.size) n
        = n + (es.map Prod.fst).length
          + (es.flatMap fun e => (e.2.members .field).keys.map fun key => (e.1, key)).length
          + (es.flatMap fun e => (e.2.members .method).keys.map fun key => (e.1, key)).length by
    rw [h, Nat.zero_add]
    rfl
  intro es
  induction es with
  | nil => intro n; rfl
  | cons e rest ih =>
      intro n
      have hf : ((e.2.members .field).keys).length = e.2.fields.size := List.length_map ..
      have hm : ((e.2.members .method).keys).length = e.2.methods.size := List.length_map ..
      simp only [List.map_cons, List.foldl_cons, List.flatMap_cons, List.length_cons,
        List.length_append, List.length_map, hf, hm] at ih ⊢
      rw [ih]
      omega

end RenameTable

-- ── Distinct identities of a document ────────────────────────────────────────

/-- The identities of the classes, in document order. -/
def classIdsIn (ns : Nat) (classes : List ClassEntry) : List String :=
  classes.map fun c => c.name ns

/-- The identities of the members of one kind, in document order: the name of the class, and
    the key of the member. -/
def memberIdsIn (ns : Nat) (kind : MemberKind) (classes : List ClassEntry) :
    List (String × MemberKey) :=
  classes.flatMap fun c => (c.members kind).map fun m => (c.name ns, m.key ns)

theorem mem_classIdsIn_iff (ns : Nat) (k : String) (classes : List ClassEntry) :
    k ∈ classIdsIn ns classes ↔ ((namedIn ns k classes).getLast?).isSome := by
  rw [List.getLast?_isSome, classIdsIn, List.mem_map, namedIn, ne_eq, List.filter_eq_nil_iff]
  simp

theorem mem_memberIdsIn_iff (ns : Nat) (kind : MemberKind) (k : String) (key : MemberKey)
    (classes : List ClassEntry) :
    (k, key) ∈ memberIdsIn ns kind classes ↔ ((withKey ns kind k key classes).getLast?).isSome := by
  rw [List.getLast?_isSome, ne_eq, withKey, List.filter_eq_nil_iff]
  simp only [memberIdsIn, membersIn, namedIn, List.mem_flatMap, List.mem_map, List.mem_filter,
    Prod.mk.injEq, decide_eq_true_eq]
  constructor
  · rintro ⟨c, hc, m, hm, hk, hkey⟩ h
    exact h m ⟨c, ⟨hc, hk⟩, hm⟩ hkey
  · intro h
    by_contra hno
    refine h fun m hm hkey => hno ?_
    obtain ⟨c, ⟨hc, hk⟩, hmc⟩ := hm
    exact ⟨c, hc, m, hmc, hk, hkey⟩

theorem length_memberIdsIn (ns : Nat) (kind : MemberKind) (classes : List ClassEntry) :
    (memberIdsIn ns kind classes).length = (membersIn kind classes).length := by
  simp [memberIdsIn, membersIn, List.length_flatMap]

/-- A list that names each member of another one once is as long as that list without its
    repetitions. -/
theorem length_eq_dedup {α : Type} [DecidableEq α] {ids xs : List α} (hnodup : ids.Nodup)
    (h : ∀ a, a ∈ ids ↔ a ∈ xs) : ids.length = xs.dedup.length := by
  refine ((List.perm_ext_iff_of_nodup hnodup (List.nodup_dedup xs)).2 fun a => ?_).length_eq
  rw [h a, List.mem_dedup]

/-- **Entries are distinct identities.** A table that is made by entering classes has one
    entry per distinct identity of a class, a field or a method. -/
theorem RenameTable.entryCount_enterAll (ns : Nat) (targets : Targets) (direction : Direction)
    (classes : List ClassEntry) :
    (classes.foldl (enter ns targets) { direction }).entryCount
      = (classIdsIn ns classes).dedup.length + (memberIdsIn ns .field classes).dedup.length
        + (memberIdsIn ns .method classes).dedup.length := by
  have hclass : ∀ k, k ∈ (classes.foldl (enter ns targets) { direction }).classes.keys
      ↔ k ∈ classIdsIn ns classes := by
    intro k
    rw [SortedMap.mem_keys_iff, mem_classIdsIn_iff]
    have := className?_enterAll ns targets classes { direction } k
    rw [className?] at this
    rw [← Option.isSome_map, this, show ({ direction } : RenameTable).className? k = none from rfl,
      Option.or_none, Option.isSome_map]
  have hmember : ∀ (kind : MemberKind) (id : String × MemberKey),
      id ∈ (classes.foldl (enter ns targets) { direction }).memberIds kind
        ↔ id ∈ memberIdsIn ns kind classes := by
    rintro kind ⟨k, key⟩
    rw [mem_memberIds_iff, mem_memberIdsIn_iff, memberName?_enterAll,
      show ({ direction } : RenameTable).memberName? kind k key = none from rfl,
      Option.or_none, Option.isSome_map]
  rw [entryCount_eq, length_eq_dedup (SortedMap.keys_nodup _) hclass,
    length_eq_dedup (memberIds_nodup _ _) (hmember .field),
    length_eq_dedup (memberIds_nodup _ _) (hmember .method)]

end Nomenclator.Naming
