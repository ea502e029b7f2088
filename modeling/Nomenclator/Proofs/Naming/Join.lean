import Nomenclator.Naming.Join
import Nomenclator.Proofs.Naming.RenameTable

/-! # Joining catalogs — the meaning of the table, the counters and the log

    A join walks the left catalog once and asks the index of the right one for
    every symbol.  The route:

    * the table of a join is the table that `enter` makes with the targets of the
      index (`table_addClass`), so `RenameTable` already says what it holds;
    * one step counts one symbol, and counts and reports it exactly if it has no
      counterpart (`Advance`), hence so does the whole walk;
    * the index answers with the LAST symbol of the right catalog that has the
      shared name, per kind (`get?_classes_index`, `get?_members_index`).

    The table has one entry per symbol of the left catalog exactly when no two
    symbols share their identity in the namespace that is read there. -/

namespace Nomenclator.Naming

namespace Join

/-- The target names that an index gives. -/
def targets (index : JoinIndex) (shared dest : Nat) : RenameTable.Targets where
  ofClass c := (index.classes.get? (c.name shared)).getD (c.name dest)
  ofMember kind m := ((index.members kind).get? (m.name shared)).getD (m.name dest)

/-- The number of warnings in a log. -/
def warnings (log : Log) : Nat := (log.filter fun record => record.level = .warn).length

theorem warnings_append (a b : Log) : warnings (a ++ b) = warnings a + warnings b := by
  rw [warnings, List.filter_append, List.length_append]
  rfl

/-- What some steps of a join add: `symbols` have been counted, and of these `lone` without a
    counterpart, each with one warning. -/
structure Advance (p p' : Progress) (symbols lone : Nat) : Prop where
  total : p'.matched + p'.unmatched = p.matched + p.unmatched + symbols
  unmatched : p'.unmatched = p.unmatched + lone
  warned : warnings p'.log = warnings p.log + lone

theorem Advance.refl (p : Progress) : Advance p p 0 0 := ⟨rfl, rfl, rfl⟩

theorem Advance.trans {p p' p'' : Progress} {m n k l : Nat} (h : Advance p p' m k)
    (h' : Advance p' p'' n l) : Advance p p'' (m + n) (k + l) where
  total := by rw [h'.total, h.total, Nat.add_assoc]
  unmatched := by rw [h'.unmatched, h.unmatched, Nat.add_assoc]
  warned := by rw [h'.warned, h.warned, Nat.add_assoc]

/-- A step that has found a counterpart. -/
theorem Advance.found (p : Progress) (table : RenameTable) :
    Advance p { p with table, matched := p.matched + 1 } 1 0 where
  total := Nat.add_right_comm ..
  unmatched := rfl
  warned := rfl

/-- A step that has not. -/
theorem Advance.kept (p : Progress) (table : RenameTable) (noun text : String) :
    Advance p { p with table, unmatched := p.unmatched + 1, log := p.log ++ [keptName noun text] }
      1 1 where
  total := (Nat.add_assoc ..).symm
  unmatched := rfl
  warned := warnings_append p.log [keptName noun text]

section Walk

variable (index : JoinIndex) (shared dest : Nat)

/-- The members of one kind that the index does not know. -/
def loneMembers (kind : MemberKind) (members : List Member) : List Member :=
  members.filter fun m => ((index.members kind).get? (m.name shared)).isNone

/-- The classes that the index does not know. -/
def loneClasses (classes : List ClassEntry) : List ClassEntry :=
  classes.filter fun c => (index.classes.get? (c.name shared)).isNone

-- ── Members ──────────────────────────────────────────────────────────────────

theorem table_addMember (kind : MemberKind) (owner : String) (p : Progress) (m : Member) :
    (addMember index shared dest kind owner p m).table
      = p.table.setMember kind owner (m.key dest) ((targets index shared dest).ofMember kind m) := by
  rw [addMember, targets]
  cases h : (index.members kind).get? (m.name shared) <;> simp [h, Member.key]

theorem advance_addMember (kind : MemberKind) (owner : String) (p : Progress) (m : Member) :
    Advance p (addMember index shared dest kind owner p m) 1
      (loneMembers index shared kind [m]).length := by
  rw [addMember, loneMembers]
  cases h : (index.members kind).get? (m.name shared) with
  | some target =>
      rw [List.filter_cons_of_neg (by simp [h])]
      exact Advance.found p _
  | none =>
      rw [List.filter_cons_of_pos (by simp [h])]
      exact Advance.kept p _ _ _

/-- Joining members enters them. -/
theorem table_addMembers (kind : MemberKind) (owner : String) (members : List Member)
    (p : Progress) :
    (members.foldl (addMember index shared dest kind owner) p).table
      = p.table.enterMembers dest ((targets index shared dest).ofMember kind) kind owner members := by
  induction members generalizing p with
  | nil => rfl
  | cons m rest ih =>
      rw [List.foldl_cons, ih, table_addMember]
      rfl

/-- Joining members counts them all. -/
theorem advance_addMembers (kind : MemberKind) (owner : String) (members : List Member)
    (p : Progress) :
    Advance p (members.foldl (addMember index shared dest kind owner) p) members.length
      (loneMembers index shared kind members).length := by
  induction members generalizing p with
  | nil => exact Advance.refl p
  | cons m rest ih =>
      have hsplit : loneMembers index shared kind (m :: rest)
          = loneMembers index shared kind [m] ++ loneMembers index shared kind rest :=
        List.filter_append [m] rest
      rw [List.foldl_cons, List.length_cons, hsplit, List.length_append, Nat.add_comm rest.length]
      exact (advance_addMember index shared dest kind owner p m).trans (ih _)

-- ── Classes ──────────────────────────────────────────────────────────────────

/-- The state after a class itself has been joined. -/
def addName (p : Progress) (c : ClassEntry) : Progress :=
  match index.classes.get? (c.name shared) with
  | some target =>
    { p with table := p.table.setClass (c.name dest) target, matched := p.matched + 1 }
  | none =>
    { p with
      table := p.table.setClass (c.name dest) (c.name dest)
      unmatched := p.unmatched + 1
      log := p.log ++ [keptName "class" (c.name dest)] }

theorem addClass_eq (p : Progress) (c : ClassEntry) :
    addClass index shared dest p c
      = c.methods.foldl (addMember index shared dest .method (c.name dest))
          (c.fields.foldl (addMember index shared dest .field (c.name dest))
            (addName index shared dest p c)) := rfl

theorem table_addName (p : Progress) (c : ClassEntry) :
    (addName index shared dest p c).table
      = p.table.setClass (c.name dest) ((targets index shared dest).ofClass c) := by
  rw [addName, targets]
  cases h : index.classes.get? (c.name shared) <;> simp [h]

theorem advance_addName (p : Progress) (c : ClassEntry) :
    Advance p (addName index shared dest p c) 1 (loneClasses index shared [c]).length := by
  rw [addName, loneClasses]
  cases h : index.classes.get? (c.name shared) with
  | some target =>
      rw [List.filter_cons_of_neg (by simp [h])]
      exact Advance.found p _
  | none =>
      rw [List.filter_cons_of_pos (by simp [h])]
      exact Advance.kept p _ _ _

/-- **One step of the walk, the table.** Joining a class enters it. -/
theorem table_addClass (p : Progress) (c : ClassEntry) :
    (addClass index shared dest p c).table
      = p.table.enter dest (targets index shared dest) c := by
  rw [addClass_eq, table_addMembers, table_addMembers, table_addName]
  rfl

/-- **The whole walk, the table.** -/
theorem table_addClasses (classes : List ClassEntry) (p : Progress) :
    (classes.foldl (addClass index shared dest) p).table
      = classes.foldl (RenameTable.enter dest (targets index shared dest)) p.table := by
  induction classes generalizing p with
  | nil => rfl
  | cons c rest ih => rw [List.foldl_cons, ih, table_addClass, List.foldl_cons]

/-- The number of classes, fields and methods. -/
def symbolsIn (classes : List ClassEntry) : Nat :=
  classes.length + (membersIn .field classes).length + (membersIn .method classes).length

/-- The number of classes, fields and methods that the index does not know. -/
def loneIn (classes : List ClassEntry) : Nat :=
  (loneClasses index shared classes).length
    + (loneMembers index shared .field (membersIn .field classes)).length
    + (loneMembers index shared .method (membersIn .method classes)).length

theorem symbolsIn_cons (c : ClassEntry) (classes : List ClassEntry) :
    symbolsIn (c :: classes) = 1 + c.fields.length + c.methods.length + symbolsIn classes := by
  simp only [symbolsIn, membersIn, List.flatMap_cons, List.length_append, List.length_cons,
    ClassEntry.members]
  omega

theorem loneIn_cons (c : ClassEntry) (classes : List ClassEntry) :
    loneIn index shared (c :: classes)
      = (loneClasses index shared [c]).length + (loneMembers index shared .field c.fields).length
        + (loneMembers index shared .method c.methods).length + loneIn index shared classes := by
  have hclass : loneClasses index shared (c :: classes)
      = loneClasses index shared [c] ++ loneClasses index shared classes :=
    List.filter_append [c] classes
  have hmember : ∀ kind, loneMembers index shared kind (membersIn kind (c :: classes))
      = loneMembers index shared kind (c.members kind)
        ++ loneMembers index shared kind (membersIn kind classes) := by
    intro kind
    rw [membersIn, List.flatMap_cons, loneMembers, List.filter_append]
    rfl
  simp only [loneIn, hclass, hmember, List.length_append, ClassEntry.members]
  omega

/-- **One step of the walk, the counters and the log.** -/
theorem advance_addClass (p : Progress) (c : ClassEntry) :
    Advance p (addClass index shared dest p c) (1 + c.fields.length + c.methods.length)
      ((loneClasses index shared [c]).length + (loneMembers index shared .field c.fields).length
        + (loneMembers index shared .method c.methods).length) := by
  rw [addClass_eq]
  exact ((advance_addName index shared dest p c).trans
    (advance_addMembers index shared dest .field _ c.fields _)).trans
    (advance_addMembers index shared dest .method _ c.methods _)

/-- **The whole walk, the counters and the log.** -/
theorem advance_addClasses (classes : List ClassEntry) (p : Progress) :
    Advance p (classes.foldl (addClass index shared dest) p) (symbolsIn classes)
      (loneIn index shared classes) := by
  induction classes generalizing p with
  | nil => exact Advance.refl p
  | cons c rest ih =>
      rw [List.foldl_cons, symbolsIn_cons, loneIn_cons]
      exact (advance_addClass index shared dest p c).trans (ih _)

end Walk

-- ── The index and its log ────────────────────────────────────────────────────

/-- The index knows a class by the last class with the shared name. -/
theorem get?_classes_index (right : Catalog) (shared dest : Nat) (name : String) :
    (index right shared dest).classes.get? name
      = ((namedIn shared name right.classes).getLast?).map fun c => c.name dest :=
  SortedMap.get?_ofList_map right.classes (fun c => c.name shared) (fun c => c.name dest) name

/-- The index knows a member by the last member of its kind with the shared name. -/
theorem get?_members_index (right : Catalog) (shared dest : Nat) (kind : MemberKind)
    (name : String) :
    ((index right shared dest).members kind).get? name
      = (((membersIn kind right.classes).filter fun m => m.name shared = name).getLast?).map
          fun m => m.name dest := by
  cases kind with
  | field => exact SortedMap.get?_ofList_map right.fields _ _ name
  | method => exact SortedMap.get?_ofList_map right.methods _ _ name

theorem warnings_repeats (kind : MemberKind) (seen names : List String) :
    warnings (repeats kind seen names).1 = 0 := by
  induction names generalizing seen with
  | nil => rfl
  | cons name later ih =>
      simp only [repeats]
      by_cases h : name ∈ seen
      · rw [if_pos h]
        exact ih (name :: seen)
      · rw [if_neg h]
        exact ih (name :: seen)

/-- Building the index warns of nothing. -/
theorem warnings_indexLog (shared : Nat) (seenFields seenMethods : List String)
    (classes : List ClassEntry) :
    warnings (indexLog shared seenFields seenMethods classes) = 0 := by
  induction classes generalizing seenFields seenMethods with
  | nil => rfl
  | cons c later ih =>
      simp only [indexLog]
      rw [warnings_append, warnings_append, warnings_repeats, warnings_repeats, ih]

end Join

-- ── What a join gives ────────────────────────────────────────────────────────

/-- The walk over the left catalog, from an empty table. -/
def Join.walk (left right : Catalog) (q : JoinQuery) (ls ld rs rd : Nat) : Join.Progress :=
  left.classes.foldl (Join.addClass (Join.index right rs rd) ls ld)
    { table := { direction := { source := q.leftDest, dest := q.rightDest } } }

/-- With all labels declared, a join is the outcome of its walk; only the walk warns. -/
theorem join_eq {left right : Catalog} {q : JoinQuery} {ls ld rs rd : Nat}
    (hls : left.resolve q.shared = .ok ls) (hld : left.resolve q.leftDest = .ok ld)
    (hrs : right.resolve q.shared = .ok rs) (hrd : right.resolve q.rightDest = .ok rd) :
    ∃ log, join left right q = .ok
        { table := (Join.walk left right q ls ld rs rd).table
          matched := (Join.walk left right q ls ld rs rd).matched
          unmatched := (Join.walk left right q ls ld rs rd).unmatched
          log }
      ∧ Join.warnings log = Join.warnings (Join.walk left right q ls ld rs rd).log := by
  refine ⟨[Join.startRecord q] ++ Join.indexLog rs [] [] right.classes
    ++ (Join.walk left right q ls ld rs rd).log
    ++ [Join.endRecord (Join.walk left right q ls ld rs rd).matched
      (Join.walk left right q ls ld rs rd).unmatched], ?_, ?_⟩
  · rw [join]
    rw [hls, hld, hrs, hrd]
    rfl
  · rw [Join.warnings_append, Join.warnings_append, Join.warnings_append,
      Join.warnings_indexLog]
    show 0 + 0 + _ + 0 = _
    omega

/-- The table of the walk is entered class by class. -/
theorem Join.table_walk (left right : Catalog) (q : JoinQuery) (ls ld rs rd : Nat) :
    (Join.walk left right q ls ld rs rd).table = left.classes.foldl
      (RenameTable.enter ld (Join.targets (Join.index right rs rd) ls ld))
      { direction := { source := q.leftDest, dest := q.rightDest } } :=
  Join.table_addClasses _ _ _ _ _

/-- A join that succeeds has resolved all four labels. -/
theorem resolve_of_join {left right : Catalog} {q : JoinQuery} {j : Joined}
    (h : join left right q = .ok j) :
    ∃ ls ld rs rd, left.resolve q.shared = .ok ls ∧ left.resolve q.leftDest = .ok ld
      ∧ right.resolve q.shared = .ok rs ∧ right.resolve q.rightDest = .ok rd := by
  rw [join] at h
  cases hls : left.resolve q.shared with
  | error e => rw [hls] at h; exact nomatch h
  | ok ls =>
      cases hld : left.resolve q.leftDest with
      | error e => rw [hls, hld] at h; exact nomatch h
      | ok ld =>
          cases hrs : right.resolve q.shared with
          | error e => rw [hls, hld, hrs] at h; exact nomatch h
          | ok rs =>
              cases hrd : right.resolve q.rightDest with
              | error e => rw [hls, hld, hrs, hrd] at h; exact nomatch h
              | ok rd => exact ⟨ls, ld, rs, rd, rfl, rfl, rfl, rfl⟩

/-- The class of the right catalog that a shared name stands for: the last with that name. -/
def classCounterpart? (right : Catalog) (shared : Nat) (name : String) : Option ClassEntry :=
  (namedIn shared name right.classes).getLast?

/-- The member of the right catalog that a shared name stands for: the last of its kind with
    that name, whatever its class and its descriptor. -/
def memberCounterpart? (right : Catalog) (shared : Nat) (kind : MemberKind) (name : String) :
    Option Member :=
  ((membersIn kind right.classes).filter fun m => m.name shared = name).getLast?

/-- The number of symbols of the left catalog that have no counterpart of their kind. -/
def loneCount (left right : Catalog) (ls rs : Nat) : Nat :=
  (left.classes.filter fun c => (classCounterpart? right rs (c.name ls)).isNone).length
    + (left.fields.filter fun m => (memberCounterpart? right rs .field (m.name ls)).isNone).length
    + (left.methods.filter fun m => (memberCounterpart? right rs .method (m.name ls)).isNone).length

theorem loneIn_index (left right : Catalog) (ls rs rd : Nat) :
    Join.loneIn (Join.index right rs rd) ls left.classes = loneCount left right ls rs := by
  have hclass : ∀ c : ClassEntry, ((Join.index right rs rd).classes.get? (c.name ls)).isNone
      = (classCounterpart? right rs (c.name ls)).isNone := by
    intro c
    rw [Join.get?_classes_index, Option.isNone_map]
    rfl
  have hmember : ∀ (kind : MemberKind) (m : Member),
      (((Join.index right rs rd).members kind).get? (m.name ls)).isNone
        = (memberCounterpart? right rs kind (m.name ls)).isNone := by
    intro kind m
    rw [Join.get?_members_index, Option.isNone_map]
    rfl
  simp only [Join.loneIn, Join.loneClasses, Join.loneMembers, hclass, hmember]
  rfl

/-- **The exact meaning of a join.** With all labels declared the join succeeds; a class or a
    member is renamed exactly if the left catalog has it under this identity, and then the LAST
    symbol with the identity decides: it gets the name of its counterpart, or keeps its own.
    The symbols without a counterpart are counted, and each of them is warned of once. -/
theorem join_meaning (left right : Catalog) (q : JoinQuery) (ls ld rs rd : Nat)
    (hls : left.resolve q.shared = .ok ls) (hld : left.resolve q.leftDest = .ok ld)
    (hrs : right.resolve q.shared = .ok rs) (hrd : right.resolve q.rightDest = .ok rd) :
    ∃ j, join left right q = .ok j
      ∧ (∀ k, j.table.className? k
          = ((namedIn ld k left.classes).getLast?).map fun c =>
              ((classCounterpart? right rs (c.name ls)).map fun d => d.name rd).getD k)
      ∧ (∀ kind k key, j.table.memberName? kind k key
          = ((withKey ld kind k key left.classes).getLast?).map fun m =>
              ((memberCounterpart? right rs kind (m.name ls)).map fun d => d.name rd).getD key.name)
      ∧ j.unmatched = loneCount left right ls rs
      ∧ Join.warnings j.log = j.unmatched
      ∧ j.matched + j.unmatched = left.symbolCount := by
  obtain ⟨log, hj, hlog⟩ := join_eq hls hld hrs hrd
  have hwalk : Join.Advance _ (Join.walk left right q ls ld rs rd) _ _ :=
    Join.advance_addClasses (Join.index right rs rd) ls ld left.classes _
  refine ⟨_, hj, ?_, ?_, ?_, ?_, ?_⟩
  · intro k
    rw [Join.table_walk, RenameTable.className?_enterAll]
    rw [show ∀ d : Direction, ({ direction := d } : RenameTable).className? k = none
      from fun _ => rfl, Option.or_none]
    refine Option.map_congr fun c hc => ?_
    -- the last class named `k` is named `k`
    have hk : c.name ld = k := by
      simpa using (List.mem_filter.1 (List.mem_of_getLast? hc)).2
    simp only [Join.targets]
    rw [Join.get?_classes_index, hk]
    rfl
  · intro kind k key
    rw [Join.table_walk, RenameTable.memberName?_enterAll]
    rw [show ∀ d : Direction, ({ direction := d } : RenameTable).memberName? kind k key = none
      from fun _ => rfl, Option.or_none]
    refine Option.map_congr fun m hm => ?_
    have hkey : m.key ld = key := by
      simpa using (List.mem_filter.1 (List.mem_of_getLast? hm)).2
    have hname : m.name ld = key.name := congrArg MemberKey.name hkey
    simp only [Join.targets]
    rw [Join.get?_members_index, hname]
    rfl
  · rw [hwalk.unmatched, loneIn_index]
    exact Nat.zero_add _
  · rw [hlog, hwalk.warned, hwalk.unmatched]
    rfl
  · rw [hwalk.total]
    exact Nat.zero_add _

/-- Two documents that share `mid`: a class with a field and a method, of which the class and
    the field have counterparts and the method has none. -/
theorem join_meaning_two_documents :
    ∃ left right,
      Catalog.load "v1\tmid\tnamed\nCLASS\tc\tBox\nFIELD\tc\tI\tf\tsize\nMETHOD\tc\t()V\tm\trun\n"
          = .ok left
      ∧ Catalog.load "tiny\t2\t0\tmid\tnamed\nc\tc\tCrate\n\tf\tJ\tf\tweight\n" = .ok right
      ∧ ∃ j, join left right { shared := "mid", leftDest := "named", rightDest := "named" } = .ok j
        ∧ (∀ k, j.table.className? k
            = ((namedIn 1 k left.classes).getLast?).map fun c =>
                ((classCounterpart? right 0 (c.name 0)).map fun d => d.name 1).getD k)
        ∧ (∀ kind k key, j.table.memberName? kind k key
            = ((withKey 1 kind k key left.classes).getLast?).map fun m =>
                ((memberCounterpart? right 0 kind (m.name 0)).map fun d => d.name 1).getD key.name)
        ∧ j.unmatched = loneCount left right 0 0
        ∧ Join.warnings j.log = j.unmatched
        ∧ j.matched + j.unmatched = left.symbolCount :=
  ⟨{ format := .tinyV1
     namespaces := ⟨["mid", "named"]⟩
     classes := [⟨["c", "Box"], [⟨["f", "size"], ["I", "I"]⟩], [⟨["m", "run"], ["()V", "()V"]⟩]⟩]
     fingerprint := Digest.fingerprintOf
       "v1\tmid\tnamed\nCLASS\tc\tBox\nFIELD\tc\tI\tf\tsize\nMETHOD\tc\t()V\tm\trun\n" },
    { format := .tinyV2
      namespaces := ⟨["mid", "named"]⟩
      classes := [⟨["c", "Crate"], [⟨["f", "weight"], ["J", "J"]⟩], []⟩]
      fingerprint := Digest.fingerprintOf
        "tiny\t2\t0\tmid\tnamed\nc\tc\tCrate\n\tf\tJ\tf\tweight\n" },
    rfl, rfl, join_meaning _ _ _ 0 1 0 1 rfl rfl rfl rfl⟩

-- ── One entry per symbol ─────────────────────────────────────────────────────

/-- No two symbols of one kind share their identity in the namespace at a position. -/
structure DistinctIdentities (ns : Nat) (classes : List ClassEntry) : Prop where
  ofClasses : (classIdsIn ns classes).Nodup
  ofMembers : ∀ kind, (memberIdsIn ns kind classes).Nodup

/-- Dropping repetitions shortens a list, or there are none. -/
theorem dedup_length_eq_iff {α : Type} [DecidableEq α] (xs : List α) :
    xs.dedup.length ≤ xs.length ∧ (xs.dedup.length = xs.length ↔ xs.Nodup) := by
  have hsub := List.dedup_sublist xs
  refine ⟨hsub.length_le, ?_⟩
  constructor
  · intro h
    rw [← hsub.eq_of_length h]
    exact List.nodup_dedup xs
  · intro h
    rw [List.dedup_eq_self.2 h]

/-- **One entry per symbol, exactly when identities are distinct.** Every symbol of the left
    catalog is counted, but the table can be smaller: it has one entry per symbol if and only
    if no two symbols of one kind share their identity in the namespace that is read on the
    left. -/
theorem join_total_iff (left right : Catalog) (q : JoinQuery) (j : Joined)
    (h : join left right q = .ok j) :
    j.matched + j.unmatched = left.symbolCount
      ∧ j.table.entryCount ≤ left.symbolCount
      ∧ ∃ ns, left.resolve q.leftDest = .ok ns
          ∧ (j.table.entryCount = left.symbolCount ↔ DistinctIdentities ns left.classes) := by
  obtain ⟨ls, ld, rs, rd, hls, hld, hrs, hrd⟩ := resolve_of_join h
  obtain ⟨log, hj, -⟩ := join_eq hls hld hrs hrd
  obtain rfl := Except.ok.inj (hj.symm.trans h)
  have hwalk : Join.Advance _ (Join.walk left right q ls ld rs rd) _ _ :=
    Join.advance_addClasses (Join.index right rs rd) ls ld left.classes _
  have hcount : (Join.walk left right q ls ld rs rd).table.entryCount
      = (classIdsIn ld left.classes).dedup.length
      + (memberIdsIn ld .field left.classes).dedup.length
      + (memberIdsIn ld .method left.classes).dedup.length := by
    rw [Join.table_walk, RenameTable.entryCount_enterAll]
  have hsymbols : left.symbolCount = (classIdsIn ld left.classes).length
      + (memberIdsIn ld .field left.classes).length
      + (memberIdsIn ld .method left.classes).length := by
    rw [length_memberIdsIn, length_memberIdsIn, classIdsIn, List.length_map]
    rfl
  obtain ⟨hle₁, hiff₁⟩ := dedup_length_eq_iff (classIdsIn ld left.classes)
  obtain ⟨hle₂, hiff₂⟩ := dedup_length_eq_iff (memberIdsIn ld .field left.classes)
  obtain ⟨hle₃, hiff₃⟩ := dedup_length_eq_iff (memberIdsIn ld .method left.classes)
  refine ⟨?_, ?_, ld, hld, ?_, ?_⟩
  · rw [hwalk.total]
    exact Nat.zero_add _
  · rw [hcount, hsymbols]
    omega
  · intro heq
    rw [hcount, hsymbols] at heq
    refine ⟨hiff₁.1 (by omega), fun kind => ?_⟩
    cases kind with
    | field => exact hiff₂.1 (by omega)
    | method => exact hiff₃.1 (by omega)
  · intro hd
    have h₁ := hiff₁.2 hd.ofClasses
    have h₂ := hiff₂.2 (hd.ofMembers .field)
    have h₃ := hiff₃.2 (hd.ofMembers .method)
    rw [hcount, hsymbols]
    omega

/-- A document with distinct names in every namespace keeps all its entries. -/
theorem join_total_distinct_names :
    ∃ left j, Catalog.load "v1\tmid\tnamed\nCLASS\tc\tBox\nFIELD\tc\tLc;\tf\tself\n" = .ok left
      ∧ join left left { shared := "mid", leftDest := "named", rightDest := "mid" } = .ok j
      ∧ j.matched + j.unmatched = left.symbolCount
      ∧ j.table.entryCount ≤ left.symbolCount
      ∧ ∃ ns, left.resolve "named" = .ok ns
          ∧ (j.table.entryCount = left.symbolCount ↔ DistinctIdentities ns left.classes) := by
  let left : Catalog :=
    { format := .tinyV1
      namespaces := ⟨["mid", "named"]⟩
      classes := [⟨["c", "Box"], [⟨["f", "self"], ["Lc;", "LBox;"]⟩], []⟩]
      fingerprint :=
        Digest.fingerprintOf "v1\tmid\tnamed\nCLASS\tc\tBox\nFIELD\tc\tLc;\tf\tself\n" }
  have hjoin : join left left { shared := "mid", leftDest := "named", rightDest := "mid" } = .ok _ :=
    rfl
  exact ⟨left, _, rfl, hjoin, join_total_iff left left _ _ hjoin⟩

/-- Two classes with one name in the namespace that is read on the left: both are counted, and
    the table has one entry. -/
theorem join_drops_classes_with_one_name :
    ∃ left right j, Catalog.load "v1\ta\tb\nCLASS\tx\tK\nCLASS\ty\tK\n" = .ok left
      ∧ Catalog.load "v1\ta\tb\nCLASS\tx\tP\n" = .ok right
      ∧ join left right { shared := "a", leftDest := "b", rightDest := "b" } = .ok j
      ∧ j.matched + j.unmatched = 2 ∧ left.symbolCount = 2 ∧ j.table.entryCount = 1 :=
  ⟨{ format := .tinyV1
     namespaces := ⟨["a", "b"]⟩
     classes := [⟨["x", "K"], [], []⟩, ⟨["y", "K"], [], []⟩]
     fingerprint := Digest.fingerprintOf "v1\ta\tb\nCLASS\tx\tK\nCLASS\ty\tK\n" },
    { format := .tinyV1
      namespaces := ⟨["a", "b"]⟩
      classes := [⟨["x", "P"], [], []⟩]
      fingerprint := Digest.fingerprintOf "v1\ta\tb\nCLASS\tx\tP\n" },
    _, rfl, rfl, rfl, rfl, rfl, rfl⟩

end Nomenclator.Naming
