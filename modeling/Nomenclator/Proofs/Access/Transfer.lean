import Nomenclator.Access.Transfer
import Nomenclator.Proofs.Access.Overrides
import Nomenclator.Proofs.Naming.Descriptor

/-! # Transfer — the meaning of overrides in another namespace

    A catalog gives every subject an image in the target namespace, or none.  A
    transfer moves each override to the image of its subject.

    * **Images** — of several classes, or members of one kind, with one identity the
      last counts; a member that is not declared keeps its name;
    * **One entry** — a subject is transferred exactly when it has an image;
    * **All entries** — adding them one after the other fails at a subject without
      image, or where two subjects with one image differ in visibility. -/

namespace Nomenclator.Access

open Naming (Catalog ClassEntry Member)

-- ── Images ───────────────────────────────────────────────────────────────────

section Images

variable (catalog : Catalog) (source dest : Nat)

/-- The name, in the target namespace, of the last class with a name. -/
def classImage? (name : String) : Option String :=
  ((catalog.classes.filter fun c => c.name source = name).getLast?).map fun c => c.name dest

/-- The members of one kind with their classes, in document order. -/
def declared (kind : MemberKind) : List (ClassEntry × Member) :=
  catalog.classes.flatMap fun c => (c.members kind).map fun m => (c, m)

/-- The identity, in the target namespace, of the last declared member with an identity. -/
def declaredImage? (kind : MemberKind) (m : MemberRef) : Option MemberRef :=
  (((declared catalog kind).filter fun e => Transfer.memberRef e.1 e.2 source = m).getLast?).map
    fun e => Transfer.memberRef e.1 e.2 dest

/-- The identity, in the target namespace, of a member that need not be declared. -/
def inferredImage? (m : MemberRef) : Option MemberRef := do
  let owner ← classImage? catalog source dest m.owner
  let descriptor ←
    (Descriptor.renameClasses (classImage? catalog source dest) m.descriptor).toOption
  return { owner, name := m.name, descriptor }

/-- The subject in the target namespace. -/
def image? : Subject → Option Subject
  | .ofClass name => (classImage? catalog source dest name).map .ofClass
  | .ofMember kind m =>
    ((declaredImage? catalog source dest kind m).or (inferredImage? catalog source dest m)).map
      (.ofMember kind)

/-- The tables of a transfer between two namespaces. -/
def tables (direction : Direction) : Transfer where
  direction
  classes := catalog.classNames source dest
  fields := Transfer.memberTable catalog.classes .field source dest
  methods := Transfer.memberTable catalog.classes .method source dest

end Images

section Entries

variable {catalog : Catalog} {source dest : Nat}

/-- A member has an image if it is declared, or if its owner has one and its descriptor is
    complete. -/
theorem isSome_memberImage_iff (kind : MemberKind) (m : MemberRef) :
    (image? catalog source dest (.ofMember kind m)).isSome
      ↔ (declaredImage? catalog source dest kind m).isSome
        ∨ (classImage? catalog source dest m.owner).isSome
            ∧ Descriptor.Complete m.descriptor := by
  rw [image?, Option.isSome_map, Option.isSome_or, Bool.or_eq_true]
  refine or_congr_right ?_
  rw [inferredImage?, ← Descriptor.exists_renameClasses_iff (classImage? catalog source dest)]
  cases classImage? catalog source dest m.owner with
  | none => exact ⟨fun h => (nomatch h), fun h => (nomatch h.1)⟩
  | some owner =>
      cases Descriptor.renameClasses (classImage? catalog source dest) m.descriptor with
      | error e => exact ⟨fun h => (nomatch h), fun ⟨_, _, h⟩ => (nomatch h)⟩
      | ok descriptor => exact ⟨fun _ => ⟨rfl, descriptor, rfl⟩, fun _ => rfl⟩

-- ── One entry ────────────────────────────────────────────────────────────────

/-- The transfer knows the images that the catalog gives. -/
structure Transfer.Knows (t : Transfer) (catalog : Catalog) (source dest : Nat) : Prop where
  classes : t.classes.get? = classImage? catalog source dest
  members : ∀ kind, (t.members kind).get? = declaredImage? catalog source dest kind

theorem Transfer.get?_memberTable (kind : MemberKind) (m : MemberRef) :
    (memberTable catalog.classes kind source dest).get? m
      = declaredImage? catalog source dest kind m := by
  have hpairs : (catalog.classes.flatMap fun c => (c.members kind).map fun m =>
        (memberRef c m source, memberRef c m dest))
      = (declared catalog kind).map fun e =>
          (memberRef e.1 e.2 source, memberRef e.1 e.2 dest) := by
    rw [declared, List.map_flatMap]
    refine List.flatMap_congr fun c _ => ?_
    rw [List.map_map]
    rfl
  rw [memberTable, hpairs, SortedMap.get?_ofList_map]
  rfl

/-- A catalog gives a transfer between any two of its namespaces. -/
theorem Transfer.ofCatalog_eq_ok {direction : Direction}
    (hsource : catalog.resolve direction.source = .ok source)
    (hdest : catalog.resolve direction.dest = .ok dest) :
    Transfer.ofCatalog catalog direction = .ok (tables catalog source dest direction) := by
  rw [ofCatalog, hsource, hdest]
  rfl

theorem knows_tables (direction : Direction) :
    (tables catalog source dest direction).Knows catalog source dest := by
  refine ⟨funext fun name => SortedMap.get?_ofList_map .., fun kind => funext fun m => ?_⟩
  cases kind <;> exact Transfer.get?_memberTable _ m

namespace Transfer

variable {t : Transfer}

theorem className_eq_ok_iff (h : t.Knows catalog source dest) {name target : String} :
    t.className name = .ok target ↔ classImage? catalog source dest name = some target := by
  rw [className, h.classes]
  cases classImage? catalog source dest name with
  | none => exact ⟨fun h => (nomatch h), fun h => (nomatch h)⟩
  | some image => simp only [Except.ok.injEq, Option.some.injEq]

theorem renameDescriptor_eq_ok_iff (h : t.Knows catalog source dest) {descriptor out : String} :
    (Naming.renameDescriptor t.classes descriptor).mapError Error.naming = .ok out
      ↔ (Descriptor.renameClasses (classImage? catalog source dest) descriptor).toOption
          = some out := by
  rw [Outcome.mapError_eq_ok, Naming.renameDescriptor, Outcome.mapError_eq_ok, h.classes,
    Outcome.toOption_eq_some]

theorem member_eq_ok_iff (h : t.Knows catalog source dest) {kind : MemberKind}
    {m target : MemberRef} :
    t.member kind m = .ok target
      ↔ (declaredImage? catalog source dest kind m).or (inferredImage? catalog source dest m)
          = some target := by
  rw [member, h.members]
  cases declaredImage? catalog source dest kind m with
  | some image => simp only [Option.some_or, Except.ok.injEq, Option.some.injEq]
  | none =>
      rw [Option.none_or]
      constructor
      · intro hok
        obtain ⟨owner, howner, hok⟩ := Outcome.bind_eq_ok.1 hok
        obtain ⟨descriptor, hdescriptor, hok⟩ := Outcome.bind_eq_ok.1 hok
        cases hok
        exact Option.bind_eq_some_iff.2 ⟨owner, (className_eq_ok_iff h).1 howner,
          Option.bind_eq_some_iff.2 ⟨descriptor, (renameDescriptor_eq_ok_iff h).1 hdescriptor, rfl⟩⟩
      · intro hsome
        obtain ⟨owner, howner, hsome⟩ := Option.bind_eq_some_iff.1 hsome
        obtain ⟨descriptor, hdescriptor, hsome⟩ := Option.bind_eq_some_iff.1 hsome
        cases hsome
        exact Outcome.bind_eq_ok.2 ⟨owner, (className_eq_ok_iff h).2 howner,
          Outcome.bind_eq_ok.2 ⟨descriptor, (renameDescriptor_eq_ok_iff h).2 hdescriptor, rfl⟩⟩

/-- **A subject is transferred to its image**, and only if it has one. -/
theorem subject_eq_ok_iff (h : t.Knows catalog source dest) {s target : Subject} :
    t.subject s = .ok target ↔ image? catalog source dest s = some target := by
  cases s with
  | ofClass name =>
      rw [subject, image?, Outcome.map_eq_ok, Option.map_eq_some_iff]
      exact exists_congr fun image => and_congr_left fun _ => className_eq_ok_iff h
  | ofMember kind m =>
      rw [subject, image?, Outcome.map_eq_ok, Option.map_eq_some_iff]
      exact exists_congr fun image => and_congr_left fun _ => member_eq_ok_iff h

/-- The class that decides whether a subject can be transferred: itself, or its owner where
    the member is not declared. -/
def Needs (catalog : Catalog) (source dest : Nat) (s : Subject) (name : String) : Prop :=
  s = .ofClass name
    ∨ ∃ kind m, s = .ofMember kind m ∧ m.owner = name
        ∧ declaredImage? catalog source dest kind m = none

theorem className_eq_unresolved (h : t.Knows catalog source dest) {name symbol a b : String}
    (herr : t.className name = .error (.unresolved symbol a b)) :
    symbol = name ∧ a = t.direction.source ∧ b = t.direction.dest
      ∧ classImage? catalog source dest name = none := by
  rw [className, h.classes] at herr
  cases himage : classImage? catalog source dest name with
  | some image =>
      rw [himage] at herr
      exact nomatch herr
  | none =>
      rw [himage] at herr
      cases herr
      exact ⟨rfl, rfl, rfl, rfl⟩

/-- A subject is unresolved only for want of an image of the class that it needs. -/
theorem subject_eq_unresolved (h : t.Knows catalog source dest) {s : Subject}
    {symbol a b : String} (herr : t.subject s = .error (.unresolved symbol a b)) :
    Needs catalog source dest s symbol ∧ classImage? catalog source dest symbol = none
      ∧ a = t.direction.source ∧ b = t.direction.dest := by
  cases s with
  | ofClass name =>
      obtain ⟨rfl, ha, hb, hnone⟩ := className_eq_unresolved h (Outcome.map_eq_error.1 herr)
      exact ⟨.inl rfl, hnone, ha, hb⟩
  | ofMember kind m =>
      have hmember := Outcome.map_eq_error.1 herr
      rw [member, h.members] at hmember
      cases himage : declaredImage? catalog source dest kind m with
      | some image =>
          rw [himage] at hmember
          exact nomatch hmember
      | none =>
          rw [himage] at hmember
          rcases Outcome.bind_eq_error.1 hmember with howner | ⟨owner, -, hmember⟩
          · obtain ⟨rfl, ha, hb, hnone⟩ := className_eq_unresolved h howner
            exact ⟨.inr ⟨kind, m, rfl, rfl, himage⟩, hnone, ha, hb⟩
          · -- what is wrong with a descriptor is reported as such
            rcases Outcome.bind_eq_error.1 hmember with hdescriptor | ⟨descriptor, -, hmember⟩
            · obtain ⟨e, -, he⟩ := Outcome.mapError_eq_error.1 hdescriptor
              exact nomatch he
            · exact nomatch hmember

-- ── All entries ──────────────────────────────────────────────────────────────

/-- What is requested once entries have been transferred: what was before, and the visibility
    of every entry for the image of its subject. -/
theorem addAll_eq_ok (h : t.Knows catalog source dest) {entries : List (Subject × Visibility)}
    {o out : Overrides} (hok : t.addAll o entries = .ok out) :
    out.label = o.label
      ∧ (∀ e ∈ entries, (image? catalog source dest e.1).isSome)
      ∧ ∀ s visibility, out.get? s = some visibility
          ↔ o.get? s = some visibility
            ∨ ∃ e ∈ entries, e.2 = visibility ∧ image? catalog source dest e.1 = some s := by
  induction entries generalizing o with
  | nil =>
      cases hok
      refine ⟨rfl, fun e he => (nomatch he), fun s visibility => ?_⟩
      exact (or_iff_left fun ⟨e, he, _⟩ => (nomatch he)).symm
  | cons entry later ih =>
      obtain ⟨key, level⟩ := entry
      obtain ⟨target, htarget, hok⟩ := Outcome.bind_eq_ok.1 hok
      obtain ⟨next, hnext, hok⟩ := Outcome.bind_eq_ok.1 hok
      have himage := (subject_eq_ok_iff h).1 htarget
      have hadmits := (Overrides.exists_add_iff o target level).1 ⟨next, hnext⟩
      obtain ⟨hlabel, hget⟩ := Overrides.add_eq_ok hnext
      obtain ⟨hlabel', himages, hget'⟩ := ih hok
      refine ⟨hlabel'.trans hlabel, ?_, fun s visibility => ?_⟩
      · exact List.forall_mem_cons.2 ⟨Option.isSome_iff_exists.2 ⟨target, himage⟩, himages⟩
      · have hstep : next.get? s = some visibility
            ↔ o.get? s = some visibility ∨ (level = visibility ∧ target = s) := by
          rw [hget s]
          by_cases hs : s = target
          · subst hs
            rw [if_pos rfl, Option.some.injEq]
            constructor
            · intro heq
              exact .inr ⟨heq, rfl⟩
            · rintro (hold | ⟨heq, -⟩)
              · exact (hadmits visibility hold).symm
              · exact heq
          · rw [if_neg hs]
            exact (or_iff_left fun heq => hs heq.2.symm).symm
        rw [hget' s visibility, hstep, or_assoc]
        simp only [List.mem_cons, exists_eq_or_imp, himage, Option.some.injEq]

/-- Entries can be transferred if every subject has an image, at which nothing else is
    requested, neither before nor by another entry. -/
theorem exists_addAll (h : t.Knows catalog source dest) {entries : List (Subject × Visibility)}
    {o : Overrides} (himages : ∀ e ∈ entries, (image? catalog source dest e.1).isSome)
    (hadmits : ∀ e ∈ entries, ∀ s, image? catalog source dest e.1 = some s → o.Admits s e.2)
    (hagree : ∀ e ∈ entries, ∀ e' ∈ entries, ∀ s, image? catalog source dest e.1 = some s →
      image? catalog source dest e'.1 = some s → e.2 = e'.2) :
    ∃ out, t.addAll o entries = .ok out := by
  induction entries generalizing o with
  | nil => exact ⟨o, rfl⟩
  | cons entry later ih =>
      obtain ⟨key, level⟩ := entry
      obtain ⟨target, himage⟩ := Option.isSome_iff_exists.1 (himages _ List.mem_cons_self)
      obtain ⟨next, hnext⟩ :=
        (Overrides.exists_add_iff o target level).2 (hadmits _ List.mem_cons_self target himage)
      have hlater : ∀ e ∈ later, ∀ s, image? catalog source dest e.1 = some s →
          next.Admits s e.2 := by
        intro e he s hs existing hexisting
        rw [(Overrides.add_eq_ok hnext).2 s] at hexisting
        by_cases heq : s = target
        · rw [if_pos heq] at hexisting
          cases hexisting
          exact hagree _ List.mem_cons_self e (List.mem_cons_of_mem _ he) s (heq ▸ himage) hs
        · rw [if_neg heq] at hexisting
          exact hadmits e (List.mem_cons_of_mem _ he) s hs existing hexisting
      obtain ⟨out, hout⟩ := ih (fun e he => himages e (List.mem_cons_of_mem _ he)) hlater
        fun e he e' he' => hagree e (List.mem_cons_of_mem _ he) e' (List.mem_cons_of_mem _ he')
      refine ⟨out, ?_⟩
      rw [addAll]
      exact Outcome.bind_eq_ok.2 ⟨target, (subject_eq_ok_iff h).2 himage,
        Outcome.bind_eq_ok.2 ⟨next, hnext, hout⟩⟩

/-- Transferring entries leaves a symbol unresolved only at one of their subjects. -/
theorem addAll_eq_unresolved {entries : List (Subject × Visibility)} {o : Overrides}
    {symbol a b : String} (herr : t.addAll o entries = .error (.unresolved symbol a b)) :
    ∃ e ∈ entries, t.subject e.1 = .error (.unresolved symbol a b) := by
  induction entries generalizing o with
  | nil => exact nomatch herr
  | cons entry later ih =>
      obtain ⟨key, level⟩ := entry
      rcases Outcome.bind_eq_error.1 herr with hsubject | ⟨target, -, herr⟩
      · exact ⟨_, List.mem_cons_self, hsubject⟩
      · rcases Outcome.bind_eq_error.1 herr with hadd | ⟨next, -, herr⟩
        · obtain ⟨existing, -, -, he⟩ := Overrides.add_eq_error_iff.1 hadd
          exact nomatch he
        · obtain ⟨e, he, hsubject⟩ := ih herr
          exact ⟨e, List.mem_cons_of_mem _ he, hsubject⟩

end Transfer

end Entries

-- ── The whole transfer ───────────────────────────────────────────────────────

/-- What a transfer asks of overrides: images for all subjects, and one visibility at each of
    them. -/
structure Transferable (catalog : Catalog) (source dest : Nat) (o : Overrides) : Prop where
  classes : ∀ name visibility, o.get? (.ofClass name) = some visibility →
    (classImage? catalog source dest name).isSome
  members : ∀ kind m visibility, o.get? (.ofMember kind m) = some visibility →
    (declaredImage? catalog source dest kind m).isSome
      ∨ (classImage? catalog source dest m.owner).isSome ∧ Descriptor.Complete m.descriptor
  agree : ∀ s s' target v v', o.get? s = some v → o.get? s' = some v' →
    image? catalog source dest s = some target → image? catalog source dest s' = some target →
      v = v'

section Whole

variable {catalog : Catalog} {label : String} {o : Overrides}

/-- Overrides can be transferred if every subject has an image, at which they agree. -/
theorem transferable_of_images {source dest : Nat}
    (himages : ∀ s visibility, o.get? s = some visibility → (image? catalog source dest s).isSome)
    (hagree : ∀ s s' target v v', o.get? s = some v → o.get? s' = some v' →
      image? catalog source dest s = some target → image? catalog source dest s' = some target →
        v = v') : Transferable catalog source dest o := by
  refine ⟨fun name visibility hget => ?_, fun kind m visibility hget => ?_, hagree⟩
  · have hclass := himages _ visibility hget
    rwa [image?, Option.isSome_map] at hclass
  · exact (isSome_memberImage_iff kind m).1 (himages _ visibility hget)

/-- Every subject of overrides that can be transferred has an image. -/
theorem Transferable.isSome_image {source dest : Nat} (h : Transferable catalog source dest o)
    {s : Subject} {visibility : Visibility} (hget : o.get? s = some visibility) :
    (image? catalog source dest s).isSome := by
  cases s with
  | ofClass name =>
      rw [image?, Option.isSome_map]
      exact h.classes name visibility hget
  | ofMember kind m => exact (isSome_memberImage_iff kind m).2 (h.members kind m visibility hget)

/-- Between declared namespaces, a transfer adds all entries to overrides that are empty. -/
theorem transfer_eq_map (h : o.label ≠ label) {source dest : Nat}
    (hsource : catalog.resolve o.label = .ok source) (hdest : catalog.resolve label = .ok dest) :
    transfer catalog label o
      = ((tables catalog source dest ⟨o.label, label⟩).addAll { label } o.entries).map
          fun out => {
            overrides := out
            log := [transferRecord ⟨o.label, label⟩,
              (tables catalog source dest ⟨o.label, label⟩).appliedRecord out] } := by
  have hof : Transfer.ofCatalog catalog ⟨o.label, label⟩
      = .ok (tables catalog source dest ⟨o.label, label⟩) :=
    Transfer.ofCatalog_eq_ok hsource hdest
  have happly : (tables catalog source dest ⟨o.label, label⟩).apply o
      = (tables catalog source dest ⟨o.label, label⟩).addAll { label } o.entries :=
    if_neg (not_not.2 rfl)
  rw [transfer, if_neg h]
  dsimp only
  rw [transferAlong, hof]
  show Except.map _ (Transfer.apply _ o >>= _) = _
  rw [happly]
  cases (tables catalog source dest ⟨o.label, label⟩).addAll { label } o.entries <;> rfl

/-- A transfer that does not end with a fault of the catalog has found both namespaces. -/
theorem resolve_of_transfer (h : o.label ≠ label)
    (hfault : ∀ e, transfer catalog label o ≠ .error (.naming e)) :
    ∃ source dest, catalog.resolve o.label = .ok source ∧ catalog.resolve label = .ok dest := by
  rw [transfer, if_neg h] at hfault
  dsimp only at hfault
  rw [transferAlong, Transfer.ofCatalog] at hfault
  dsimp only at hfault
  cases hsource : catalog.resolve o.label with
  | error e =>
      rw [hsource] at hfault
      exact absurd rfl (hfault e)
  | ok source =>
      cases hdest : catalog.resolve label with
      | error e =>
          rw [hsource, hdest] at hfault
          exact absurd rfl (hfault e)
      | ok dest => exact ⟨source, dest, rfl, rfl⟩

/-- What a successful transfer has done. -/
theorem transfer_eq_ok (h : o.label ≠ label) {source dest : Nat}
    (hsource : catalog.resolve o.label = .ok source) (hdest : catalog.resolve label = .ok dest)
    {out : Transferred} (hok : transfer catalog label o = .ok out) :
    Transferable catalog source dest o
      ∧ out.overrides.label = label
      ∧ ∀ s visibility, out.overrides.get? s = some visibility
          ↔ ∃ key, o.get? key = some visibility ∧ image? catalog source dest key = some s := by
  rw [transfer_eq_map h hsource hdest] at hok
  obtain ⟨overrides, hadd, rfl⟩ := Outcome.map_eq_ok.1 hok
  obtain ⟨hlabel, himages, hget⟩ := Transfer.addAll_eq_ok (knows_tables _) hadd
  have hrequested : ∀ s visibility, overrides.get? s = some visibility
      ↔ ∃ key, o.get? key = some visibility ∧ image? catalog source dest key = some s := by
    intro s visibility
    rw [hget s visibility, Overrides.get?_new]
    constructor
    · rintro (hnone | ⟨⟨key, level⟩, hmem, rfl, himage⟩)
      · exact nomatch hnone
      · exact ⟨key, Overrides.mem_entries_iff.1 hmem, himage⟩
    · rintro ⟨key, hkey, himage⟩
      exact .inr ⟨(key, visibility), Overrides.mem_entries_iff.2 hkey, rfl, himage⟩
  refine ⟨transferable_of_images (fun s visibility hs => ?_) ?_, hlabel, hrequested⟩
  · exact himages (s, visibility) (Overrides.mem_entries_iff.2 hs)
  · intro s s' target v v' hs hs' hi hi'
    have hv := (hrequested target v).2 ⟨s, hs, hi⟩
    have hv' := (hrequested target v').2 ⟨s', hs', hi'⟩
    exact Option.some.inj (hv.symm.trans hv')

/-- What is asked of overrides is enough. -/
theorem exists_transfer (h : o.label ≠ label) {source dest : Nat}
    (hsource : catalog.resolve o.label = .ok source) (hdest : catalog.resolve label = .ok dest)
    (hable : Transferable catalog source dest o) :
    ∃ out, transfer catalog label o = .ok out := by
  have himages : ∀ e ∈ o.entries, (image? catalog source dest e.1).isSome := fun e he =>
    hable.isSome_image (Overrides.mem_entries_iff.1 he)
  have hadmits : ∀ e ∈ o.entries, ∀ s, image? catalog source dest e.1 = some s →
      Overrides.Admits { label } s e.2 := by
    intro e _ s _ existing hexisting
    rw [Overrides.get?_new] at hexisting
    exact nomatch hexisting
  have hagree : ∀ e ∈ o.entries, ∀ e' ∈ o.entries, ∀ s, image? catalog source dest e.1 = some s →
      image? catalog source dest e'.1 = some s → e.2 = e'.2 := by
    intro e he e' he' s hs hs'
    exact hable.agree e.1 e'.1 s e.2 e'.2 (Overrides.mem_entries_iff.1 he)
      (Overrides.mem_entries_iff.1 he') hs hs'
  obtain ⟨out, hout⟩ := Transfer.exists_addAll
    (knows_tables ⟨o.label, label⟩) himages hadmits hagree
  rw [transfer_eq_map h hsource hdest]
  exact ⟨_, Outcome.map_eq_ok.2 ⟨out, hout, rfl⟩⟩

/-- A symbol that a transfer cannot resolve is the class that one of the subjects needs. -/
theorem transfer_eq_unresolved (h : o.label ≠ label) {source dest : Nat}
    (hsource : catalog.resolve o.label = .ok source) (hdest : catalog.resolve label = .ok dest)
    {symbol a b : String} (herr : transfer catalog label o = .error (.unresolved symbol a b)) :
    a = o.label ∧ b = label ∧ classImage? catalog source dest symbol = none
      ∧ ∃ key visibility, o.get? key = some visibility
          ∧ Transfer.Needs catalog source dest key symbol := by
  rw [transfer_eq_map h hsource hdest] at herr
  obtain ⟨⟨key, visibility⟩, hmem, hsubject⟩ :=
    Transfer.addAll_eq_unresolved (Outcome.map_eq_error.1 herr)
  obtain ⟨hneeds, hnone, ha, hb⟩ :=
    Transfer.subject_eq_unresolved (knows_tables _) hsubject
  exact ⟨ha, hb, hnone, key, visibility, Overrides.mem_entries_iff.1 hmem, hneeds⟩

end Whole

/-- **The meaning of a transfer.** Overrides can be transferred into another namespace exactly
    when both namespaces are declared, every class has an image, every member is declared or
    has an owner with an image and a complete descriptor, and subjects with one image agree.
    The result then requests, in the target namespace, the visibility of every subject for its
    image, and nothing else. A symbol that is reported as unresolved has no image, and is a
    class with an override or the owner of an undeclared member with one. -/
theorem transfer_meaning (catalog : Catalog) (label : String) (o : Overrides)
    (h : o.label ≠ label) :
    ((∃ out, transfer catalog label o = .ok out)
        ↔ ∃ source dest, catalog.resolve o.label = .ok source
            ∧ catalog.resolve label = .ok dest ∧ Transferable catalog source dest o)
      ∧ (∀ out, transfer catalog label o = .ok out →
          out.overrides.label = label
            ∧ ∀ source dest, catalog.resolve o.label = .ok source →
                catalog.resolve label = .ok dest → ∀ s visibility,
                  out.overrides.get? s = some visibility
                    ↔ ∃ key, o.get? key = some visibility
                        ∧ image? catalog source dest key = some s)
      ∧ ∀ symbol a b, transfer catalog label o = .error (.unresolved symbol a b) →
          a = o.label ∧ b = label
            ∧ ∃ source dest, catalog.resolve o.label = .ok source
                ∧ catalog.resolve label = .ok dest
                ∧ classImage? catalog source dest symbol = none
                ∧ ((∃ visibility, o.get? (.ofClass symbol) = some visibility)
                    ∨ ∃ kind m visibility, o.get? (.ofMember kind m) = some visibility
                        ∧ m.owner = symbol
                        ∧ declaredImage? catalog source dest kind m = none) := by
  have hresolved : ∀ {out}, transfer catalog label o = .ok out →
      ∃ source dest, catalog.resolve o.label = .ok source ∧ catalog.resolve label = .ok dest :=
    fun hok => resolve_of_transfer h fun e herr => nomatch hok.symm.trans herr
  refine ⟨⟨?_, ?_⟩, ?_, ?_⟩
  · rintro ⟨out, hok⟩
    obtain ⟨source, dest, hsource, hdest⟩ := hresolved hok
    exact ⟨source, dest, hsource, hdest, (transfer_eq_ok h hsource hdest hok).1⟩
  · rintro ⟨source, dest, hsource, hdest, hable⟩
    exact exists_transfer h hsource hdest hable
  · intro out hok
    obtain ⟨source, dest, hsource, hdest⟩ := hresolved hok
    refine ⟨(transfer_eq_ok h hsource hdest hok).2.1, fun source' dest' hsource' hdest' => ?_⟩
    exact (transfer_eq_ok h hsource' hdest' hok).2.2
  · intro symbol a b herr
    obtain ⟨source, dest, hsource, hdest⟩ :=
      resolve_of_transfer h fun e hnaming => nomatch herr.symm.trans hnaming
    obtain ⟨ha, hb, hnone, key, visibility, hkey, hneeds⟩ :=
      transfer_eq_unresolved h hsource hdest herr
    refine ⟨ha, hb, source, dest, hsource, hdest, hnone, ?_⟩
    rcases hneeds with rfl | ⟨kind, m, rfl, howner, hdeclared⟩
    · exact .inl ⟨visibility, hkey⟩
    · exact .inr ⟨kind, m, visibility, hkey, howner, hdeclared⟩

/-- Two fields that share an image, and a method that is not declared. -/
theorem transfer_meaning_shared_image :
    ∃ catalog, Catalog.load "v1\to\ti\tn\nCLASS\ta\tc1\tBox\nFIELD\ta\tI\tb\tf1\tx\nFIELD\ta\tI\tc\tf1\ty\n"
        = .ok catalog
      ∧ ∃ o : Overrides, o.label = "n" ∧ o.label ≠ "i"
        ∧ o.get? (.ofMember .field ⟨"Box", "x", "I"⟩) = some .toAll
        ∧ o.get? (.ofMember .field ⟨"Box", "y", "I"⟩) = some .toAll
        ∧ o.get? (.ofMember .method ⟨"Box", "run", "(LBox;)V"⟩) = some .toOwner
        ∧ ∃ out, transfer catalog "i" o = .ok out ∧ out.overrides.label = "i"
          ∧ out.overrides.get? (.ofMember .field ⟨"c1", "f1", "I"⟩) = some .toAll
          ∧ out.overrides.get? (.ofMember .method ⟨"c1", "run", "(Lc1;)V"⟩) = some .toOwner := by
  let catalog : Catalog :=
    { format := .tinyV1
      namespaces := ⟨["o", "i", "n"]⟩
      classes := [⟨["a", "c1", "Box"],
        [⟨["b", "f1", "x"], ["I", "I", "I"]⟩, ⟨["c", "f1", "y"], ["I", "I", "I"]⟩], []⟩]
      fingerprint := Digest.fingerprintOf
        "v1\to\ti\tn\nCLASS\ta\tc1\tBox\nFIELD\ta\tI\tb\tf1\tx\nFIELD\ta\tI\tc\tf1\ty\n" }
  let o : Overrides :=
    { label := "n"
      fields := .ofList [(⟨"Box", "x", "I"⟩, .toAll), (⟨"Box", "y", "I"⟩, .toAll)]
      methods := .ofList [(⟨"Box", "run", "(LBox;)V"⟩, .toOwner)] }
  have hok : transfer catalog "i" o = .ok _ := rfl
  obtain ⟨hlabel, hget⟩ := (transfer_meaning catalog "i" o (by decide)).2.1 _ hok
  refine ⟨catalog, rfl, o, rfl, by decide, rfl, rfl, rfl, _, hok, hlabel,
    (hget 2 1 rfl rfl _ _).2 ?_, (hget 2 1 rfl rfl _ _).2 ?_⟩
  · exact ⟨.ofMember .field ⟨"Box", "y", "I"⟩, rfl, by decide +kernel⟩
  · exact ⟨.ofMember .method ⟨"Box", "run", "(LBox;)V"⟩, rfl, by decide +kernel⟩

end Nomenclator.Access
