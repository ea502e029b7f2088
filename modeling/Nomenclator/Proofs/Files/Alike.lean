import Nomenclator.Proofs.Files.Operation

/-! # Trees that differ in what is in their files

    Where a path leads, and what an operation does, depends on which locations hold
    files, directories and links, but not on the contents of files.  So operations
    on two trees that are alike up to contents agree: both fail, with one fault, or
    both give trees that are alike.

    The contents are related by any relation `R`; `readContent` then gives related
    contents (`Alike.readContent`). -/

namespace Nomenclator

open Outcome (Agree)

namespace SortedMap

universe u v

variable {κ : Type u} {α : Type v} [Ord κ] {R : α → α → Prop} {m n : SortedMap κ α}

/-- Entries with one key and related values. -/
def EntryAlike (R : α → α → Prop) (a b : κ × α) : Prop := a.1 = b.1 ∧ R a.2 b.2

/-- Maps with the same keys and related values. -/
def Alike (R : α → α → Prop) (m n : SortedMap κ α) : Prop :=
  List.Forall₂ (EntryAlike R) m.toList n.toList

theorem Alike.refl (hrefl : ∀ a, R a a) (m : SortedMap κ α) : Alike R m m :=
  List.forall₂_same.2 fun e _ => ⟨rfl, hrefl e.2⟩

theorem Alike.get? (h : Alike R m n) (key : κ) : Option.Rel R (m.get? key) (n.get? key) := by
  have hlook : ∀ {xs ys : List (κ × α)}, List.Forall₂ (EntryAlike R) xs ys →
      Option.Rel R (lookupIn key xs) (lookupIn key ys) := by
    intro xs ys hxy
    induction hxy with
    | nil => exact .none
    | @cons a b xs ys hab _ ih =>
        obtain ⟨k, x⟩ := a
        obtain ⟨k', y⟩ := b
        obtain ⟨rfl, hR⟩ := hab
        rw [lookupIn, lookupIn]
        cases compare key k with
        | lt => exact .none
        | eq => exact .some hR
        | gt => exact ih
  exact hlook h

theorem Alike.insert [Std.TransOrd κ] [Std.LawfulEqOrd κ] (h : Alike R m n) (key : κ) {x y : α}
    (hxy : R x y) : Alike R (m.insert key x) (n.insert key y) := by
  have hinsert : ∀ {xs ys : List (κ × α)}, List.Forall₂ (EntryAlike R) xs ys →
      List.Forall₂ (EntryAlike R) (insertIn key x xs) (insertIn key y ys) := by
    intro xs ys hxs
    induction hxs with
    | nil => exact .cons ⟨rfl, hxy⟩ .nil
    | @cons a b xs ys hab hrest ih =>
        obtain ⟨k, x'⟩ := a
        obtain ⟨k', y'⟩ := b
        obtain ⟨rfl, hR⟩ := hab
        rw [insertIn, insertIn]
        cases compare key k with
        | lt => exact .cons ⟨rfl, hxy⟩ (.cons ⟨rfl, hR⟩ hrest)
        | eq => exact .cons ⟨rfl, hxy⟩ hrest
        | gt => exact .cons ⟨rfl, hR⟩ ih
  exact hinsert h

omit [Ord κ] in
/-- Entries that are chosen by their keys stay alike. -/
theorem forall₂_filter {xs ys : List (κ × α)} (h : List.Forall₂ (EntryAlike R) xs ys)
    (keep : κ → Bool) :
    List.Forall₂ (EntryAlike R) (xs.filter fun e => keep e.1) (ys.filter fun e => keep e.1) := by
  induction h with
  | nil => exact .nil
  | @cons a b xs ys hab _ ih =>
      rw [List.filter_cons, List.filter_cons, ← hab.1]
      by_cases hkeep : keep a.1 = true
      · rw [if_pos hkeep, if_pos hkeep]
        exact .cons hab ih
      · rw [if_neg hkeep, if_neg hkeep]
        exact ih

theorem Alike.eraseWhere (h : Alike R m n) (drop : κ → Bool) :
    Alike R (m.eraseWhere drop) (n.eraseWhere drop) :=
  forall₂_filter h fun key => !drop key

end SortedMap

namespace Files

/-- Nodes that differ at most in contents, which are related. -/
inductive Node.Alike (R : Content → Content → Prop) : Node → Node → Prop where
  | file {c c' : Content} (h : R c c') : Alike R (.file c) (.file c')
  | dir : Alike R .dir .dir
  | link (target : Path) : Alike R (.link target) (.link target)

namespace FileTree

variable {R : Content → Content → Prop} {t u : FileTree}

/-- Trees that differ at most in the contents of files, which are related. -/
def Alike (R : Content → Content → Prop) (t u : FileTree) : Prop :=
  SortedMap.Alike (Node.Alike R) t.nodes u.nodes

theorem Alike.refl (hrefl : ∀ c, R c c) (t : FileTree) : Alike R t t := by
  refine SortedMap.Alike.refl (fun node => ?_) t.nodes
  cases node with
  | file c => exact .file (hrefl c)
  | dir => exact .dir
  | link target => exact .link target

theorem Alike.at? (h : Alike R t u) (loc : Location) :
    Option.Rel (Node.Alike R) (t.at? loc) (u.at? loc) := by
  by_cases hnil : loc = []
  · subst hnil
    exact .some .dir
  · rw [at?_of_ne_nil t hnil, at?_of_ne_nil u hnil]
    exact SortedMap.Alike.get? h loc

theorem Alike.set (h : Alike R t u) (loc : Location) {node node' : Node}
    (hnode : Node.Alike R node node') : Alike R (t.set loc node) (u.set loc node') :=
  SortedMap.Alike.insert h loc hnode

theorem Alike.remove (h : Alike R t u) (loc : Location) : Alike R (t.remove loc) (u.remove loc) :=
  SortedMap.Alike.eraseWhere h (isWithin loc)

theorem Alike.move (h : Alike R t u) (source dest : Location) :
    Alike R (t.move source dest) (u.move source dest) := by
  have hfold : ∀ {xs ys : List (Location × Node)},
      List.Forall₂ (SortedMap.EntryAlike (Node.Alike R)) xs ys → ∀ {v w : FileTree}, Alike R v w →
      Alike R (xs.foldl (fun t e => t.set (dest ++ e.1.drop source.length) e.2) v)
        (ys.foldl (fun t e => t.set (dest ++ e.1.drop source.length) e.2) w) := by
    intro xs ys hxy
    induction hxy with
    | nil => exact fun hvw => hvw
    | @cons a b xs ys hab _ ih =>
        intro v w hvw
        rw [List.foldl_cons, List.foldl_cons, ← hab.1]
        exact ih (hvw.set _ hab.2)
  exact hfold (SortedMap.forall₂_filter h (isWithin source)) ((h.remove source).remove dest)

theorem Alike.hasChildren (h : Alike R t u) (loc : Location) :
    u.hasChildren loc = t.hasChildren loc := by
  have hsame := SortedMap.forall₂_filter h (isBelow loc)
  rw [FileTree.hasChildren, FileTree.hasChildren, below, below, List.isEmpty_map, List.isEmpty_map]
  generalize (t.nodes.toList.filter fun e => isBelow loc e.1) = there at hsame
  generalize (u.nodes.toList.filter fun e => isBelow loc e.1) = there' at hsame
  cases hsame <;> rfl

-- ── Resolving paths ──────────────────────────────────────────────────────────

theorem Alike.walk (h : Alike R t u) (ending : Ending) (base : Location) (steps : List Step) :
    u.walk ending base steps = t.walk ending base steps := by
  induction steps generalizing base with
  | nil => rfl
  | cons step later ih =>
      cases step with
      | here | slash =>
          rw [FileTree.walk, FileTree.walk]
          exact ih base
      | up =>
          cases base with
          | nil => rw [FileTree.walk, FileTree.walk]
          | cons name rest =>
              rw [FileTree.walk, FileTree.walk]
              · exact ih _
              all_goals exact List.cons_ne_nil name rest
      | down name =>
          rw [FileTree.walk, FileTree.walk]
          have hat := h.at? (base ++ [name])
          generalize t.at? (base ++ [name]) = there at hat
          generalize u.at? (base ++ [name]) = there' at hat
          cases hat with
          | none => rfl
          | some hnode =>
              cases hnode with
              | file _ => rfl
              | dir => simp only [ih]
              | link target => rfl

theorem Alike.walkLinks (h : Alike R t u) (ending : Ending) (links : Nat) (base : Location)
    (steps : List Step) : u.walkLinks ending links base steps = t.walkLinks ending links base steps := by
  induction links generalizing base steps with
  | zero => rw [FileTree.walkLinks, FileTree.walkLinks, h.walk]
  | succ links ih =>
      rw [FileTree.walkLinks, FileTree.walkLinks, h.walk]
      cases t.walk ending base steps with
      | arrive loc => rfl
      | fault f => rfl
      | follow base' steps' => exact ih base' steps'

theorem Alike.resolve (h : Alike R t u) (ending : Ending) (p : Path) :
    u.resolve ending p = t.resolve ending p := by
  rw [FileTree.resolve, FileTree.resolve, h.walkLinks]

theorem Alike.entryAt (h : Alike R t u) (p : Path) : u.entryAt p = t.entryAt p := by
  rw [FileTree.entryAt, FileTree.entryAt, h.resolve]

theorem Alike.lookUp (h : Alike R t u) (loc : Location) :
    Agree (Option.Rel (Node.Alike R)) (t.lookUp loc) (u.lookUp loc) := by
  rw [FileTree.lookUp, FileTree.lookUp]
  cases loc.getLast? with
  | none => exact .ok (h.at? loc)
  | some name =>
      dsimp only
      by_cases hlong : isTooLong name = true
      · rw [if_pos hlong, if_pos hlong]
        exact .error _
      · rw [if_neg hlong, if_neg hlong]
        exact .ok (h.at? loc)

theorem Alike.stat (h : Alike R t u) (p : Path) : Agree (Node.Alike R) (t.stat p) (u.stat p) := by
  rw [FileTree.stat, FileTree.stat, h.resolve]
  cases t.resolve .target p with
  | error f => exact .error f
  | ok loc =>
      dsimp only [bind, Except.bind]
      have hat := h.at? loc
      generalize t.at? loc = there at hat
      generalize u.at? loc = there' at hat
      cases hat with
      | none => exact .error _
      | some hnode => exact .ok hnode

theorem Alike.isDir (h : Alike R t u) (p : Path) : u.isDir p = t.isDir p := by
  rw [FileTree.isDir, FileTree.isDir]
  have hstat := h.stat p
  generalize t.stat p = there at hstat
  generalize u.stat p = there' at hstat
  cases hstat with
  | error f => rfl
  | ok hnode => cases hnode <;> rfl

theorem Alike.isFile (h : Alike R t u) (p : Path) : u.isFile p = t.isFile p := by
  rw [FileTree.isFile, FileTree.isFile]
  have hstat := h.stat p
  generalize t.stat p = there at hstat
  generalize u.stat p = there' at hstat
  cases hstat with
  | error f => rfl
  | ok hnode => cases hnode <;> rfl

/-- A path gives related contents. -/
theorem Alike.readContent (h : Alike R t u) (p : Path) :
    Agree R (t.readContent p) (u.readContent p) := by
  refine (h.stat p).bind fun node node' hnode => ?_
  cases hnode with
  | file hc => exact .ok hc
  | dir => exact .error _
  | link target => exact .error _

-- ── Operations ───────────────────────────────────────────────────────────────

theorem Alike.write (h : Alike R t u) (p : Path) {c c' : Content} (hc : R c c') :
    Agree (Alike R) (t.write p c) (u.write p c') := by
  rw [FileTree.write, FileTree.write, h.resolve]
  cases t.resolve .place p with
  | error f => exact .error f
  | ok loc =>
      dsimp only [bind, Except.bind]
      have hset := h.set loc (.file hc)
      have hat := h.at? loc
      generalize t.at? loc = there at hat
      generalize u.at? loc = there' at hat
      cases hat with
      | none => exact .ok hset
      | some hnode =>
          cases hnode with
          | file _ => exact .ok hset
          | dir => exact .error _
          | link _ => exact .ok hset

theorem Alike.createDir (h : Alike R t u) (p : Path) :
    Agree (Alike R) (t.createDir p) (u.createDir p) := by
  rw [FileTree.createDir, FileTree.createDir, h.entryAt]
  cases t.entryAt p with
  | error f => exact .error f
  | ok loc =>
      refine (h.lookUp loc).bind fun there there' hat => ?_
      cases hat with
      | none => exact .ok (h.set loc .dir)
      | some _ => exact .error _

/-- Results with one success or fault, and trees that are alike. -/
def AlikeAfter (R : Content → Content → Prop) (x y : Except IoFault Unit × FileTree) : Prop :=
  x.1 = y.1 ∧ Alike R x.2 y.2

theorem Alike.createDirs (h : Alike R t u) (paths : List Path) :
    AlikeAfter R (t.createDirs paths) (u.createDirs paths) := by
  induction paths generalizing t u with
  | nil => exact ⟨rfl, h⟩
  | cons p shorter ih =>
      -- what is reported when the directory cannot be created
      have hthere : ∀ {v w : FileTree} (f : IoFault), Alike R v w →
          AlikeAfter R (if v.isDir p then .ok () else .error f, v)
            (if w.isDir p then .ok () else .error f, w) := by
        intro v w f hvw
        refine ⟨?_, hvw⟩
        rw [hvw.isDir p]
      rw [FileTree.createDirs, FileTree.createDirs]
      have hfirst := h.createDir p
      generalize t.createDir p = made at hfirst
      generalize u.createDir p = made' at hfirst
      cases hfirst with
      | ok hmade => exact ⟨rfl, hmade⟩
      | error f =>
          by_cases hf : f = .notFound
          · subst hf
            dsimp only
            have hrest := ih h
            generalize t.createDirs shorter = after at hrest
            generalize u.createDirs shorter = after' at hrest
            obtain ⟨result, v⟩ := after
            obtain ⟨result', w⟩ := after'
            obtain ⟨rfl, hvw⟩ : result = result' ∧ Alike R v w := hrest
            cases result with
            | error f => exact ⟨rfl, hvw⟩
            | ok _ =>
                dsimp only
                have hagain := Alike.createDir hvw p
                generalize v.createDir p = made at hagain
                generalize w.createDir p = made' at hagain
                cases hagain with
                | ok hmade => exact ⟨rfl, hmade⟩
                | error f => exact hthere f hvw
          · cases f with
            | notFound => exact absurd rfl hf
            | _ => exact hthere _ h

theorem Alike.createDirAll (h : Alike R t u) (p : Path) :
    AlikeAfter R (t.createDirAll p) (u.createDirAll p) :=
  h.createDirs p.ancestors

theorem Alike.rename (h : Alike R t u) (source dest : Path) :
    Agree (Alike R) (t.rename source dest) (u.rename source dest) := by
  rw [FileTree.rename, FileTree.rename, h.entryAt, h.entryAt]
  by_cases hnul : (source.holdsNul || dest.holdsNul) = true
  · rw [if_pos hnul, if_pos hnul]
    exact .error _
  rw [if_neg hnul, if_neg hnul]
  cases t.entryAt source with
  | error f => exact .error f
  | ok src =>
  cases t.entryAt dest with
  | error f => exact .error f
  | ok dst =>
  by_cases hname : (!source.endsInName || !dest.endsInName) = true
  · simp only [if_pos hname]
    exact .error _
  simp only [if_neg hname]
  refine (h.lookUp src).bind fun node? node?' hnode => ?_
  cases hnode with
  | none => exact .error _
  | @some node node' hnode =>
  refine (h.lookUp dst).bind fun there there' hthere => ?_
  have hmove := h.move src dst
  have hdir : node' ≠ .dir ↔ node ≠ .dir := by
    cases hnode with
    | dir => exact Iff.rfl
    | file _ => exact iff_of_true Node.noConfusion Node.noConfusion
    | link _ => exact Iff.rfl
  simp only [hdir]
  by_cases hslash : node ≠ .dir ∧ (source.endsInSlash = true ∨ dest.endsInSlash = true)
  · rw [if_pos hslash, if_pos hslash]
    exact .error _
  rw [if_neg hslash, if_neg hslash]
  by_cases hinto : isBelow src dst = true
  · rw [if_pos hinto, if_pos hinto]
    exact .error _
  rw [if_neg hinto, if_neg hinto]
  by_cases honto : isBelow dst src = true
  · rw [if_pos honto, if_pos honto]
    exact .error _
  rw [if_neg honto, if_neg honto]
  by_cases hsame : src = dst
  · rw [if_pos hsame, if_pos hsame]
    exact .ok h
  rw [if_neg hsame, if_neg hsame, h.hasChildren]
  cases hthere with
  | none => cases hnode <;> exact .ok hmove
  | some hother =>
      cases hother with
      | dir =>
          cases hnode with
          | dir =>
              by_cases hfull : t.hasChildren dst = true
              · simp only [if_pos hfull]
                exact .error _
              · simp only [if_neg hfull]
                exact .ok hmove
          | file _ => exact .error _
          | link _ => exact .error _
      | file _ =>
          cases hnode with
          | dir => exact .error _
          | file _ => exact .ok hmove
          | link _ => exact .ok hmove
      | link _ =>
          cases hnode with
          | dir => exact .error _
          | file _ => exact .ok hmove
          | link _ => exact .ok hmove

end FileTree

end Files

end Nomenclator
