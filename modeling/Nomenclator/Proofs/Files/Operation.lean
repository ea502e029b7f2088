import Nomenclator.Files.Operation
import Nomenclator.Proofs.Outcome
import Nomenclator.Proofs.SortedMap

/-! # Operations on file trees — what they may change

    A tree is known by what is at its locations.  Every operation that succeeds
    names the locations it worked on, and changes nothing that is not within one
    of them (`Touches`).

    * **Nodes** — how `set`, `remove` and `move` show at a location;
    * **Operations** — each success inverted into a resolved location, what was
      there, and the tree it gives;
    * **Directories** — creating them only fills gaps (`Grows`). -/

namespace Nomenclator.Files.FileTree

-- ── Nodes ────────────────────────────────────────────────────────────────────

theorem isWithin_iff {top loc : Location} : isWithin top loc = true ↔ top <+: loc :=
  List.isPrefixOf_iff_prefix

theorem isWithin_self (loc : Location) : isWithin loc loc = true :=
  isWithin_iff.2 (List.prefix_refl loc)

theorem at?_of_ne_nil (t : FileTree) {loc : Location} (h : loc ≠ []) :
    t.at? loc = t.nodes.get? loc := by
  cases loc with
  | nil => exact absurd rfl h
  | cons name rest => rfl

theorem at?_set (t : FileTree) (loc other : Location) (node : Node) :
    (t.set loc node).at? other = if other = loc ∧ other ≠ [] then some node else t.at? other := by
  by_cases hnil : other = []
  · rw [if_neg fun h => h.2 hnil, hnil]
    rfl
  · rw [at?_of_ne_nil _ hnil, at?_of_ne_nil _ hnil, set, SortedMap.get?_insert]
    by_cases heq : other = loc
    · rw [if_pos heq, if_pos ⟨heq, hnil⟩]
    · rw [if_neg heq, if_neg fun h => heq h.1]

theorem at?_remove (t : FileTree) (top other : Location) :
    (t.remove top).at? other
      = if isWithin top other = true ∧ other ≠ [] then none else t.at? other := by
  by_cases hnil : other = []
  · rw [if_neg fun h => h.2 hnil, hnil]
    rfl
  · rw [at?_of_ne_nil _ hnil, at?_of_ne_nil _ hnil, remove, SortedMap.get?_eraseWhere]
    by_cases hin : isWithin top other = true
    · rw [if_pos hin, if_pos ⟨hin, hnil⟩]
    · rw [if_neg hin, if_neg fun h => hin h.1]

theorem at?_clear (t : FileTree) (top other : Location) :
    (t.clear top).at? other = if isBelow top other = true then none else t.at? other := by
  by_cases hnil : other = []
  · have hroot : isBelow top [] = false := by
      cases top with
      | nil => rfl
      | cons name rest => rfl
    rw [hnil, if_neg (by rw [hroot]; exact Bool.false_ne_true)]
    rfl
  · rw [at?_of_ne_nil _ hnil, at?_of_ne_nil _ hnil, clear, SortedMap.get?_eraseWhere]

/-- Outside the new place, moving a node only shows where it was. -/
theorem at?_move_of_outside (t : FileTree) {source dest other : Location}
    (hdest : isWithin dest other = false) :
    (t.move source dest).at? other = (t.remove source).at? other := by
  have hfold : ∀ (moved : List (Location × Node)) (u : FileTree),
      (moved.foldl (fun t e => t.set (dest ++ e.1.drop source.length) e.2) u).at? other
        = u.at? other := by
    intro moved
    induction moved with
    | nil => intro u; rfl
    | cons e later ih =>
        intro u
        rw [List.foldl_cons, ih, at?_set, if_neg]
        rintro ⟨heq, -⟩
        rw [heq, isWithin_iff.2 (List.prefix_append _ _)] at hdest
        exact nomatch hdest
  rw [move, hfold, at?_remove, if_neg fun h => ?_]
  rw [hdest] at h
  exact nomatch h.1

/-- Moving puts a node at the new place. -/
theorem at?_move_dest {t : FileTree} {source dest : Location} {node : Node} (hsource : source ≠ [])
    (hdest : dest ≠ []) (h : t.at? source = some node) :
    (t.move source dest).at? dest = some node := by
  -- of the nodes that are moved, only the one at the old place gets to the new place
  have hfold : ∀ (moved : List (Location × Node)) (u : FileTree),
      (∀ e ∈ moved, dest ++ e.1.drop source.length = dest → e.2 = node) →
      (∃ e ∈ moved, dest ++ e.1.drop source.length = dest) ∨ u.at? dest = some node →
      (moved.foldl (fun t e => t.set (dest ++ e.1.drop source.length) e.2) u).at? dest
        = some node := by
    intro moved
    induction moved with
    | nil =>
        rintro u - (⟨e, he, -⟩ | hu)
        · exact nomatch he
        · exact hu
    | cons e later ih =>
        intro u hall hsome
        rw [List.foldl_cons]
        refine ih _ (fun e' he' => hall e' (List.mem_cons_of_mem _ he')) ?_
        rw [at?_set]
        by_cases heq : dest ++ e.1.drop source.length = dest
        · rw [if_pos ⟨heq.symm, hdest⟩]
          exact .inr (congrArg some (hall e List.mem_cons_self heq))
        · rw [if_neg fun hpos => heq hpos.1.symm]
          rcases hsome with ⟨e', he', hhit⟩ | hu
          · rcases List.mem_cons.1 he' with rfl | he'
            · exact absurd hhit heq
            · exact .inl ⟨e', he', hhit⟩
          · exact .inr hu
  rw [at?_of_ne_nil t hsource] at h
  refine hfold _ _ (fun e he heq => ?_) (.inl ⟨(source, node), ?_, ?_⟩)
  · obtain ⟨hmem, hwithin⟩ := List.mem_filter.1 he
    have hdrop : e.1.drop source.length = [] := List.append_right_eq_self.1 heq
    have hkey : e.1 = source := by
      obtain ⟨rest, hrest⟩ := isWithin_iff.1 hwithin
      rw [← hrest, List.drop_left] at hdrop
      rw [← hrest, hdrop, List.append_nil]
    have hget := SortedMap.get?_eq_some_iff.2 hmem
    rw [hkey, h] at hget
    exact (Option.some.inj hget).symm
  · exact List.mem_filter.2 ⟨SortedMap.get?_eq_some_iff.1 h, isWithin_self source⟩
  · rw [List.drop_length, List.append_nil]

/-- What is below a directory keeps it from being empty. -/
theorem hasChildren_of_below {t : FileTree} {top loc : Location} {node : Node}
    (hbelow : isBelow top loc = true) (h : t.at? loc = some node) : t.hasChildren top = true := by
  have hnil : loc ≠ [] := by
    rintro rfl
    obtain ⟨hin, hne⟩ := Bool.and_eq_true_iff.1 hbelow
    rw [List.prefix_nil.1 (isWithin_iff.1 hin)] at hne
    exact nomatch hne
  rw [at?_of_ne_nil t hnil] at h
  have hmem : (loc, node) ∈ t.nodes.toList.filter fun e => isBelow top e.1 :=
    List.mem_filter.2 ⟨SortedMap.get?_eq_some_iff.1 h, hbelow⟩
  rw [hasChildren, below, Bool.not_eq_true', List.isEmpty_eq_false_iff]
  exact List.ne_nil_of_mem (List.mem_map_of_mem hmem)

-- ── What an operation may change ─────────────────────────────────────────────

/-- Can what is at the location give way to something else? A directory that is not empty
    cannot. -/
def Replaceable (t : FileTree) (loc : Location) : Prop :=
  t.at? loc = some .dir → t.hasChildren loc = false

/-- Two trees differ only within locations of a kind. -/
def Touches (sites : Location → Prop) (t t' : FileTree) : Prop :=
  ∀ loc, t'.at? loc ≠ t.at? loc → ∃ site, sites site ∧ isWithin site loc = true

theorem Touches.refl (sites : Location → Prop) (t : FileTree) : Touches sites t t :=
  fun _ h => absurd rfl h

theorem Touches.mono {sites others : Location → Prop} {t t' : FileTree}
    (h : Touches sites t t') (hsub : ∀ site, sites site → others site) : Touches others t t' := by
  intro loc hloc
  obtain ⟨site, hsite, hin⟩ := h loc hloc
  exact ⟨site, hsub site hsite, hin⟩

theorem touches_set (t : FileTree) (loc : Location) (node : Node) :
    Touches (· = loc) t (t.set loc node) := by
  intro other hother
  rw [at?_set] at hother
  by_cases heq : other = loc ∧ other ≠ []
  · exact ⟨loc, rfl, heq.1 ▸ isWithin_self _⟩
  · rw [if_neg heq] at hother
    exact absurd rfl hother

theorem touches_remove (t : FileTree) (loc : Location) : Touches (· = loc) t (t.remove loc) := by
  intro other hother
  rw [at?_remove] at hother
  by_cases hin : isWithin loc other = true ∧ other ≠ []
  · exact ⟨loc, rfl, hin.1⟩
  · rw [if_neg hin] at hother
    exact absurd rfl hother

theorem touches_move (t : FileTree) (source dest : Location) :
    Touches (fun site => site = source ∨ site = dest) t (t.move source dest) := by
  intro other hother
  cases hdest : isWithin dest other with
  | true => exact ⟨dest, .inr rfl, hdest⟩
  | false =>
      rw [at?_move_of_outside t hdest] at hother
      obtain ⟨site, rfl, hin⟩ := touches_remove t source other hother
      exact ⟨site, .inl rfl, hin⟩

-- ── Operations ───────────────────────────────────────────────────────────────

theorem lookUp_eq_ok {t : FileTree} {loc : Location} {node : Option Node}
    (h : t.lookUp loc = .ok node) : t.at? loc = node := by
  rw [lookUp] at h
  cases hlast : loc.getLast? with
  | none =>
      rw [hlast] at h
      exact Except.ok.inj h
  | some name =>
      simp only [hlast] at h
      by_cases hlong : isTooLong name = true
      · rw [if_pos hlong] at h
        exact nomatch h
      · rw [if_neg hlong] at h
        exact Except.ok.inj h

/-- Whether a name can be looked up does not depend on the tree. -/
theorem lookUp_of_lookUp {t u : FileTree} {loc : Location} {node : Option Node}
    (h : t.lookUp loc = .ok node) : u.lookUp loc = .ok (u.at? loc) := by
  rw [lookUp] at h ⊢
  cases hlast : loc.getLast? with
  | none => rfl
  | some name =>
      simp only [hlast] at h ⊢
      by_cases hlong : isTooLong name = true
      · rw [if_pos hlong] at h
        exact nomatch h
      · rw [if_neg hlong]

/-- Removing takes a file or a link away from where the path names it, without a slash at its
    end. -/
theorem removeFile_inv {t t' : FileTree} {p : Path} (h : t.removeFile p = .ok t') :
    ∃ loc node, t.entryAt p = .ok loc ∧ t.at? loc = some node ∧ node ≠ .dir
      ∧ p.endsInSlash = false ∧ t' = t.remove loc := by
  obtain ⟨loc, hloc, h⟩ := Outcome.bind_eq_ok.1 h
  obtain ⟨node, hnode, h⟩ := Outcome.bind_eq_ok.1 h
  match node, h with
  | none, h => exact nomatch h
  | some .dir, h => exact nomatch h
  | some (.file c), h =>
      by_cases hslash : p.endsInSlash = true
      · rw [if_pos hslash] at h
        exact nomatch h
      · rw [if_neg hslash] at h
        exact ⟨loc, .file c, hloc, lookUp_eq_ok hnode, Node.noConfusion,
          Bool.eq_false_iff.2 hslash, (Except.ok.inj h).symm⟩
  | some (.link target), h =>
      by_cases hslash : p.endsInSlash = true
      · rw [if_pos hslash] at h
        exact nomatch h
      · rw [if_neg hslash] at h
        exact ⟨loc, .link target, hloc, lookUp_eq_ok hnode, Node.noConfusion,
          Bool.eq_false_iff.2 hslash, (Except.ok.inj h).symm⟩

theorem removeFile_eq_ok {t t' : FileTree} {p : Path} (h : t.removeFile p = .ok t') :
    ∃ loc, t.entryAt p = .ok loc ∧ t.at? loc ≠ some .dir ∧ t' = t.remove loc := by
  obtain ⟨loc, node, hloc, hat, hdir, -, rfl⟩ := removeFile_inv h
  refine ⟨loc, hloc, ?_, rfl⟩
  rw [hat]
  exact fun heq => hdir (Option.some.inj heq)

/-- Writing puts a file where the path leads, through links. -/
theorem write_eq_ok {t t' : FileTree} {p : Path} {content : Content}
    (h : t.write p content = .ok t') :
    ∃ loc, t.resolve .place p = .ok loc ∧ t.at? loc ≠ some .dir
      ∧ t' = t.set loc (.file content) := by
  obtain ⟨loc, hloc, h⟩ := Outcome.bind_eq_ok.1 h
  refine ⟨loc, hloc, ?_⟩
  cases hat : t.at? loc with
  | none =>
      rw [hat] at h
      exact ⟨(fun hd => nomatch hd), (Except.ok.inj h).symm⟩
  | some node =>
      rw [hat] at h
      cases node with
      | dir => exact nomatch h
      | file _ => exact ⟨(fun hd => nomatch hd), (Except.ok.inj h).symm⟩
      | link _ => exact ⟨(fun hd => nomatch hd), (Except.ok.inj h).symm⟩

/-- Creating a directory fills a gap. -/
theorem createDir_eq_ok {t t' : FileTree} {p : Path} (h : t.createDir p = .ok t') :
    ∃ loc, t.entryAt p = .ok loc ∧ t.at? loc = none ∧ t' = t.set loc .dir := by
  obtain ⟨loc, hloc, h⟩ := Outcome.bind_eq_ok.1 h
  obtain ⟨node, hnode, h⟩ := Outcome.bind_eq_ok.1 h
  refine ⟨loc, hloc, ?_⟩
  cases node with
  | none => exact ⟨lookUp_eq_ok hnode, (Except.ok.inj h).symm⟩
  | some _ => exact nomatch h

/-- The tests that two paths pass when the first is renamed to the second. -/
structure Renames (t : FileTree) (source dest : Path) (src dst : Location) (node : Node) : Prop where
  plain : (source.holdsNul || dest.holdsNul) = false
  named : (!source.endsInName || !dest.endsInName) = false
  sourceAt : t.entryAt source = .ok src
  destAt : t.entryAt dest = .ok dst
  found : t.lookUp src = .ok (some node)
  there : ∃ there, t.lookUp dst = .ok there
  slash : ¬ (node ≠ .dir ∧ (source.endsInSlash = true ∨ dest.endsInSlash = true))
  into : isBelow src dst = false
  onto : isBelow dst src = false

/-- A renaming that succeeds has passed its tests. It changes nothing if both paths name one
    place; otherwise it moves what is at the old place to a new place that could be replaced. -/
theorem rename_inv {t t' : FileTree} {source dest : Path} (h : t.rename source dest = .ok t') :
    ∃ src dst node, Renames t source dest src dst node
      ∧ ((src = dst ∧ t' = t) ∨ (src ≠ dst ∧ t.Replaceable dst ∧ t' = t.move src dst)) := by
  rw [rename] at h
  by_cases hnul : (source.holdsNul || dest.holdsNul) = true
  · rw [if_pos hnul] at h
    exact nomatch h
  rw [if_neg hnul] at h
  obtain ⟨src, hsrc, h⟩ := Outcome.bind_eq_ok.1 h
  obtain ⟨dst, hdst, h⟩ := Outcome.bind_eq_ok.1 h
  by_cases hname : (!source.endsInName || !dest.endsInName) = true
  · rw [if_pos hname] at h
    exact nomatch h
  rw [if_neg hname] at h
  obtain ⟨node?, hnode, h⟩ := Outcome.bind_eq_ok.1 h
  cases node? with
  | none => exact nomatch h
  | some node =>
  obtain ⟨there, hthere, h⟩ := Outcome.bind_eq_ok.1 h
  have hat := lookUp_eq_ok hthere
  by_cases hslash : node ≠ .dir ∧ (source.endsInSlash = true ∨ dest.endsInSlash = true)
  · rw [if_pos hslash] at h
    exact nomatch h
  rw [if_neg hslash] at h
  by_cases hinto : isBelow src dst = true
  · rw [if_pos hinto] at h
    exact nomatch h
  rw [if_neg hinto] at h
  by_cases honto : isBelow dst src = true
  · rw [if_pos honto] at h
    exact nomatch h
  rw [if_neg honto] at h
  refine ⟨src, dst, node, ⟨Bool.eq_false_iff.2 hnul, Bool.eq_false_iff.2 hname, hsrc, hdst, hnode,
    ⟨there, hthere⟩, hslash, Bool.eq_false_iff.2 hinto, Bool.eq_false_iff.2 honto⟩, ?_⟩
  by_cases hsame : src = dst
  · rw [if_pos hsame] at h
    exact .inl ⟨hsame, (Except.ok.inj h).symm⟩
  rw [if_neg hsame] at h
  refine .inr ⟨hsame, ?_⟩
  rw [Replaceable, hat]
  cases there with
  | none =>
      refine ⟨(fun hdir => nomatch hdir), ?_⟩
      cases node <;> exact (Except.ok.inj h).symm
  | some other =>
      -- a directory only gives way to a directory, and only when it is empty
      cases other with
      | dir =>
          cases node with
          | dir =>
              by_cases hfull : t.hasChildren dst = true
              · simp only [if_pos hfull] at h
                exact nomatch h
              · simp only [if_neg hfull] at h
                exact ⟨fun _ => Bool.eq_false_iff.2 hfull, (Except.ok.inj h).symm⟩
          | file _ => exact nomatch h
          | link _ => exact nomatch h
      | file _ =>
          refine ⟨(fun hdir => nomatch hdir), ?_⟩
          cases node with
          | dir => exact nomatch h
          | file _ => exact (Except.ok.inj h).symm
          | link _ => exact (Except.ok.inj h).symm
      | link _ =>
          refine ⟨(fun hdir => nomatch hdir), ?_⟩
          cases node with
          | dir => exact nomatch h
          | file _ => exact (Except.ok.inj h).symm
          | link _ => exact (Except.ok.inj h).symm

/-- Renaming changes nothing, or moves what is at the old place to a new place that could be
    replaced. -/
theorem rename_eq_ok {t t' : FileTree} {source dest : Path} (h : t.rename source dest = .ok t') :
    ∃ src dst, t.entryAt source = .ok src ∧ t.entryAt dest = .ok dst
      ∧ (t' = t ∨ (t.Replaceable dst ∧ t' = t.move src dst)) := by
  obtain ⟨src, dst, node, htests, hcases⟩ := rename_inv h
  refine ⟨src, dst, htests.sourceAt, htests.destAt, ?_⟩
  rcases hcases with ⟨-, hsame⟩ | ⟨-, hmoved⟩
  · exact .inl hsame
  · exact .inr hmoved

/-- What is no directory cannot be renamed to one. -/
theorem rename_onto_dir {t : FileTree} {source dest : Path} {src dst : Location} {node : Node}
    (h : Renames t source dest src dst node) (hne : src ≠ dst) (hnode : node ≠ .dir)
    (hdst : t.at? dst = some .dir) : t.rename source dest = .error .isADirectory := by
  obtain ⟨there, hlook⟩ := h.there
  have hthere : there = some .dir := (lookUp_eq_ok hlook).symm.trans hdst
  rw [rename, if_neg (by rw [h.plain]; exact Bool.false_ne_true), h.sourceAt, h.destAt]
  simp only [bind, Except.bind]
  rw [if_neg (by rw [h.named]; exact Bool.false_ne_true), h.found, hlook, hthere]
  dsimp only
  rw [if_neg h.slash, if_neg (by rw [h.into]; exact Bool.false_ne_true),
    if_neg (by rw [h.onto]; exact Bool.false_ne_true), if_neg hne]
  cases node with
  | dir => exact absurd rfl hnode
  | file c => rfl
  | link target => rfl

/-- **A renaming can be undone** in every tree in which both paths name the places that they
    named, as long as no directory is moved or in the way. -/
theorem rename_back {t u : FileTree} {source dest : Path} {src dst : Location} {node : Node}
    (h : Renames t source dest src dst node) (hne : src ≠ dst) (hnode : node ≠ .dir)
    (hsource : u.entryAt source = .ok src) (hdest : u.entryAt dest = .ok dst)
    (hthere : u.at? dst = some node) (hfree : u.at? src ≠ some .dir) :
    u.rename dest source = .ok (u.move dst src) := by
  obtain ⟨there, hlook⟩ := h.there
  have hnul := h.plain
  have hname := h.named
  have hinto := h.into
  have honto := h.onto
  rw [Bool.or_comm] at hnul hname
  rw [rename, if_neg (by rw [hnul]; exact Bool.false_ne_true)]
  refine Outcome.bind_eq_ok.2 ⟨dst, hdest, Outcome.bind_eq_ok.2 ⟨src, hsource, ?_⟩⟩
  rw [if_neg (by rw [hname]; exact Bool.false_ne_true)]
  refine Outcome.bind_eq_ok.2 ⟨_, (lookUp_of_lookUp hlook).trans (congrArg _ hthere), ?_⟩
  refine Outcome.bind_eq_ok.2 ⟨_, lookUp_of_lookUp h.found, ?_⟩
  rw [if_neg fun hbad => h.slash ⟨hbad.1, hbad.2.symm⟩,
    if_neg (by rw [honto]; exact Bool.false_ne_true),
    if_neg (by rw [hinto]; exact Bool.false_ne_true), if_neg (Ne.symm hne)]
  cases hu : u.at? src with
  | none => cases node <;> rfl
  | some other =>
      cases other with
      | dir => exact absurd hu hfree
      | file _ =>
          cases node with
          | dir => exact absurd rfl hnode
          | file _ => rfl
          | link _ => rfl
      | link _ =>
          cases node with
          | dir => exact absurd rfl hnode
          | file _ => rfl
          | link _ => rfl

/-- Removing a directory takes it away from where the path names it. -/
theorem removeDir_eq_ok {t t' : FileTree} {p : Path} (h : t.removeDir p = .ok t') :
    ∃ loc, t.entryAt p = .ok loc ∧ t' = t.remove loc := by
  obtain ⟨loc, hloc, h⟩ := Outcome.bind_eq_ok.1 h
  refine ⟨loc, hloc, ?_⟩
  cases hlast : p.lastStep? with
  | none =>
      rw [hlast] at h
      exact nomatch h
  | some step =>
      rw [hlast] at h
      cases step with
      | here => exact nomatch h
      | up => exact nomatch h
      | slash => exact nomatch h
      | down name =>
          obtain ⟨node, -, h⟩ := Outcome.bind_eq_ok.1 h
          cases node with
          | none => exact nomatch h
          | some node =>
              cases node with
              | file _ => exact nomatch h
              | link _ => exact nomatch h
              | dir =>
                  by_cases hfull : t.hasChildren loc = true
                  · simp only [if_pos hfull] at h
                    exact nomatch h
                  · simp only [if_neg hfull] at h
                    exact (Except.ok.inj h).symm

/-- Removing a directory with all that is below it changes nothing, takes a link away, or
    empties a directory that is then taken away where the path still names it. -/
theorem removeDirAll_cases (t : FileTree) (p : Path) :
    (t.removeDirAll p).2 = t
      ∨ ∃ loc, t.resolve .entry p = .ok loc
          ∧ ((t.removeDirAll p).2 = t.remove loc ∨ (t.removeDirAll p).2 = t.clear loc
            ∨ ∃ loc', (t.clear loc).entryAt p = .ok loc'
                ∧ (t.removeDirAll p).2 = (t.clear loc).remove loc') := by
  rw [removeDirAll]
  cases hloc : t.resolve .entry p with
  | error f => exact .inl rfl
  | ok loc =>
      dsimp only
      cases t.lookUp loc with
      | error f => exact .inl rfl
      | ok node =>
          cases node with
          | none => exact .inl rfl
          | some node =>
              cases node with
              | file _ => exact .inl rfl
              | link _ => exact .inr ⟨loc, rfl, .inl rfl⟩
              | dir =>
                  refine .inr ⟨loc, rfl, .inr ?_⟩
                  dsimp only
                  cases hremove : (t.clear loc).removeDir p with
                  | ok t' =>
                      obtain ⟨loc', hloc', rfl⟩ := removeDir_eq_ok hremove
                      exact .inr ⟨loc', hloc', rfl⟩
                  | error f => cases f <;> exact .inl rfl

theorem stat_of_isFile {t : FileTree} {p : Path} (h : t.isFile p = true) :
    ∃ content, t.stat p = .ok (.file content) := by
  rw [isFile] at h
  match hstat : t.stat p with
  | .ok (.file content) => exact ⟨content, rfl⟩
  | .ok .dir => rw [hstat] at h; exact nomatch h
  | .ok (.link _) => rw [hstat] at h; exact nomatch h
  | .error _ => rw [hstat] at h; exact nomatch h

theorem readContent_of_stat {t : FileTree} {p : Path} {content : Content}
    (h : t.stat p = .ok (.file content)) : t.readContent p = .ok content := by
  rw [readContent, h]
  rfl

/-- The octets that are read are those of a file. -/
theorem readBytes_eq_ok {t : FileTree} {p : Path} {bytes : Bytes} (h : t.readBytes p = .ok bytes) :
    ∃ content, t.stat p = .ok (.file content) ∧ content.bytes = bytes := by
  obtain ⟨content, hcontent, hbytes⟩ := Outcome.map_eq_ok.1 h
  obtain ⟨node, hstat, hcontent⟩ := Outcome.bind_eq_ok.1 hcontent
  cases node with
  | file found =>
      obtain rfl := Except.ok.inj hcontent
      exact ⟨found, hstat, hbytes⟩
  | dir => cases hcontent
  | link target => cases hcontent

/-- The file of an entry below a location, by its relative location. -/
def fileBelow? (loc : Location) (e : Location × Node) : Option (Location × Content) :=
  match e.2 with
  | .file content =>
    if isBelow loc e.1 = true then some (e.1.drop loc.length, content) else none
  | _ => none

theorem filesBelow_eq {v : FileTree} {p : Path} {loc : Location}
    (hv : v.resolve .target p = .ok loc) (hat : v.at? loc ≠ none) :
    v.filesBelow p = .ok (v.nodes.toList.filterMap (fileBelow? loc)) := by
  rw [filesBelow, hv]
  dsimp only [bind, Except.bind]
  cases hnode : v.at? loc with
  | none => exact absurd hnode hat
  | some node =>
      refine congrArg Except.ok ?_
      rw [below, List.filterMap_map, List.filterMap_filter]
      refine congrArg (List.filterMap · v.nodes.toList) (funext fun e => ?_)
      obtain ⟨x, node⟩ := e
      cases hbelow : isBelow loc x <;> cases node <;> simp [fileBelow?, hbelow]

/-- The files below a path depend only on where it leads and on the files there. -/
theorem filesBelow_congr {t u : FileTree} {p : Path} {loc : Location}
    (ht : t.resolve .target p = .ok loc) (hu : u.resolve .target p = .ok loc)
    (hthere : t.at? loc ≠ none) (huthere : u.at? loc ≠ none)
    (hfiles : ∀ x content, isWithin loc x = true →
      (u.at? x = some (.file content) ↔ t.at? x = some (.file content))) :
    u.filesBelow p = t.filesBelow p := by
  rw [filesBelow_eq ht hthere, filesBelow_eq hu huthere]
  refine congrArg Except.ok (SortedMap.filterMap_toList_congr fun e he => ?_)
  obtain ⟨x, node⟩ := e
  cases node with
  | dir => cases he
  | link _ => cases he
  | file content =>
      rw [fileBelow?] at he
      dsimp only at he
      by_cases hbelow : isBelow loc x = true
      · have hwithin : isWithin loc x = true := (Bool.and_eq_true_iff.1 hbelow).1
        have hnil : x ≠ [] := by
          rintro rfl
          rw [List.prefix_nil.1 (isWithin_iff.1 hwithin)] at hbelow
          cases hbelow
        have hiff := hfiles x content hwithin
        rw [at?_of_ne_nil _ hnil, at?_of_ne_nil _ hnil, SortedMap.get?_eq_some_iff,
          SortedMap.get?_eq_some_iff] at hiff
        exact hiff
      · rw [if_neg hbelow] at he
        cases he

-- ── Directories that come ────────────────────────────────────────────────────

/-- At a location nothing has changed, or a directory has come where there was nothing. -/
def GrowsAt (t t' : FileTree) (loc : Location) : Prop :=
  t'.at? loc = t.at? loc ∨ (t.at? loc = none ∧ t'.at? loc = some .dir)

/-- The second tree has what the first has, and perhaps directories where that has nothing. -/
def Grows (t t' : FileTree) : Prop := ∀ loc, GrowsAt t t' loc

theorem Grows.refl (t : FileTree) : Grows t t := fun _ => .inl rfl

theorem GrowsAt.trans {t u v : FileTree} {loc : Location} (htu : GrowsAt t u loc)
    (huv : GrowsAt u v loc) : GrowsAt t v loc := by
  rcases huv with hsame | ⟨hnone, hdir⟩
  · rw [GrowsAt, hsame]
    exact htu
  · rcases htu with hsame | ⟨-, hdir'⟩
    · exact .inr ⟨hsame ▸ hnone, hdir⟩
    · rw [hdir'] at hnone
      exact nomatch hnone

theorem Grows.trans {t u v : FileTree} (htu : Grows t u) (huv : Grows u v) : Grows t v :=
  fun loc => (htu loc).trans (huv loc)

theorem createDir_grows {t t' : FileTree} {p : Path} (h : t.createDir p = .ok t') :
    Grows t t' := by
  obtain ⟨loc, -, hnone, rfl⟩ := createDir_eq_ok h
  intro other
  rw [GrowsAt, at?_set]
  by_cases heq : other = loc ∧ other ≠ []
  · rw [if_pos heq, heq.1]
    exact .inr ⟨hnone, rfl⟩
  · rw [if_neg heq]
    exact .inl rfl

theorem createDirs_grows (t : FileTree) (paths : List Path) : Grows t (t.createDirs paths).2 := by
  induction paths generalizing t with
  | nil => exact Grows.refl t
  | cons p shorter ih =>
      rw [createDirs]
      cases hfirst : t.createDir p with
      | ok u => exact createDir_grows hfirst
      | error f =>
          cases f with
          | notFound =>
              have hshorter := ih t
              cases hrest : t.createDirs shorter with
              | mk result u =>
                  rw [hrest] at hshorter
                  cases result with
                  | error f => exact hshorter
                  | ok _ =>
                      cases hagain : u.createDir p with
                      | ok v => simpa only [hagain] using hshorter.trans (createDir_grows hagain)
                      | error f => simpa only [hagain] using hshorter
          | _ => exact Grows.refl t

/-- Creating a directory with those above it only fills gaps, also when it fails. -/
theorem createDirAll_grows (t : FileTree) (p : Path) : Grows t (t.createDirAll p).2 :=
  createDirs_grows t p.ancestors

end Nomenclator.Files.FileTree
