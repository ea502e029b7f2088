import Nomenclator.Proofs.Files.Removal

/-! # Plain trees — trees without links

    In a tree without links, in which every node is in a directory, a path leads to
    the location that it spells or nowhere (`Path.place`), and as long as directories
    stay it leads there again (`Plain.resolve_keeps`).

    Every operation that succeeds then changes what is at the places of its paths
    and nothing else, and leaves a plain tree: one fact for each of them, as an
    equation for every location.

    A path that never goes up leads to a file as long as the file is in its place
    (`Plain.isFile_of_descends`), whatever becomes of other directories. -/

namespace Nomenclator.Files

/-- Where a step leads from a location. -/
def Step.go (loc : Location) : Step → Location
  | .here => loc
  | .slash => loc
  | .up => loc.dropLast
  | .down name => loc ++ [name]

/-- The location that a path spells. -/
def Path.place (p : Path) : Location := p.steps.foldl Step.go []

theorem Path.place_of_concat {p : Path} {front : List Step} {name : Name}
    (h : p.steps = front ++ [.down name]) : p.place = front.foldl Step.go [] ++ [name] := by
  rw [place, h, List.foldl_append]
  rfl

/-- The last step of the path goes down to a name, as it does where a path leads to a file. -/
def Path.NamesFile (p : Path) : Prop := ∃ name, p.steps.getLast? = some (.down name)

/-- The path never goes up. -/
def Path.Descends (p : Path) : Prop := .up ∉ p.steps

instance (p : Path) : Decidable p.Descends := inferInstanceAs (Decidable (.up ∉ p.steps))

/-- Is the node a link? -/
def Node.isLink : Node → Bool
  | .link _ => true
  | _ => false

namespace FileTree

/-- There is no link, and every node is in a directory. -/
structure Plain (t : FileTree) : Prop where
  noLink : ∀ loc target, t.at? loc ≠ some (.link target)
  inDir : ∀ loc name, t.at? (loc ++ [name]) ≠ none → t.at? loc = some .dir

/-- A tree can be checked to be plain node by node. -/
theorem plain_of_nodes {t : FileTree}
    (h : ∀ e ∈ t.nodes.toList, e.2.isLink = false ∧ t.at? e.1.dropLast = some .dir) : t.Plain := by
  have hnode : ∀ {loc node}, loc ≠ [] → t.at? loc = some node →
      node.isLink = false ∧ t.at? loc.dropLast = some .dir := by
    intro loc node hloc hat
    rw [at?_of_ne_nil t hloc] at hat
    exact h (loc, node) (SortedMap.get?_eq_some_iff.1 hat)
  refine ⟨fun loc target hat => ?_, fun loc name hat => ?_⟩
  · by_cases hloc : loc = []
    · rw [hloc] at hat
      cases hat
    · exact absurd (hnode hloc hat).1 Bool.noConfusion
  · obtain ⟨node, hat⟩ := Option.ne_none_iff_exists'.1 hat
    have hdir := (hnode (List.append_ne_nil_of_right_ne_nil loc (List.cons_ne_nil name [])) hat).2
    rwa [List.dropLast_concat] at hdir

/-- What was a directory is one. -/
def KeepsDirs (t t' : FileTree) : Prop := ∀ loc, t.at? loc = some .dir → t'.at? loc = some .dir

theorem KeepsDirs.refl (t : FileTree) : KeepsDirs t t := fun _ h => h

theorem KeepsDirs.trans {t u v : FileTree} (htu : KeepsDirs t u) (huv : KeepsDirs u v) :
    KeepsDirs t v :=
  fun loc h => huv loc (htu loc h)

theorem Grows.keepsDirs {t t' : FileTree} (h : Grows t t') : KeepsDirs t t' := by
  intro loc hdir
  rcases h loc with hsame | ⟨hnone, -⟩
  · exact hsame.trans hdir
  · rw [hdir] at hnone
    cases hnone

-- ── Paths ────────────────────────────────────────────────────────────────────

/-- The walk follows no link, and arrives where its steps lead, in a directory. -/
def Walk.Straight (t : FileTree) (base : Location) (steps : List Step) : Walk → Prop
  | .arrive loc => loc = steps.foldl Step.go base ∧ t.at? loc.dropLast = some .dir
  | .fault _ => True
  | .follow _ _ => False

/-- From the root, steps that go down to no name lead nowhere else. -/
theorem foldl_go_root {steps : List Step} (h : ¬ steps.any Step.isDown = true) :
    steps.foldl Step.go [] = [] := by
  induction steps with
  | nil => rfl
  | cons step later ih =>
      rw [List.any_cons, Bool.or_eq_true, not_or] at h
      cases step with
      | down name => exact absurd rfl h.1
      | here | slash | up => exact ih h.2

theorem Plain.straight {t : FileTree} (h : t.Plain) {ending : Ending} {base : Location}
    {steps : List Step} {walk : Walk} (hgoes : t.Goes ending base steps walk)
    (hbase : t.DirsTo base) : walk.Straight t base steps := by
  have hlast : ∀ {base : Location} {name : Name}, t.DirsTo base →
      t.at? (base ++ [name]).dropLast = some .dir := by
    intro base name hbase
    rw [List.dropLast_concat]
    exact hbase.self
  induction hgoes with
  | done => exact ⟨rfl, hbase.dropLast.self⟩
  | here _ ih | slash _ ih => exact ih hbase
  | root hdown => exact ⟨(foldl_go_root hdown).symm, rfl⟩
  | up _ _ ih => exact ih hbase.dropLast
  | entry => exact ⟨rfl, hlast hbase⟩
  | stop => exact ⟨rfl, hlast hbase⟩
  | dir _ hdir _ ih => exact ih (hbase.down hdir)
  | link _ hlink => exact absurd hlink (h.noLink _ _)

theorem Plain.not_follow {t : FileTree} (h : t.Plain) {ending : Ending} {base base' : Location}
    {steps steps' : List Step} : ¬ t.Goes ending base steps (.follow base' steps') := by
  intro hgoes
  generalize hwalk : Walk.follow base' steps' = walk at hgoes
  induction hgoes with
  | done | root | entry | stop => cases hwalk
  | here _ ih | slash _ ih | up _ _ ih | dir _ _ _ ih => exact ih hwalk
  | link _ hlink => exact absurd hlink (h.noLink _ _)

theorem Plain.walkLinks_eq_ok {t : FileTree} (h : t.Plain) {ending : Ending} {links : Nat}
    {base loc : Location} {steps : List Step} :
    t.walkLinks ending links base steps = .ok loc ↔ t.Goes ending base steps (.arrive loc) := by
  rw [leads_iff]
  refine ⟨fun hleads => ?_, .arrive⟩
  cases hleads with
  | arrive hgoes => exact hgoes
  | follow hgoes _ => exact absurd hgoes h.not_follow

/-- The way to a name is one of directories, and anything else can be walked from its end. -/
theorem Goes.front {t : FileTree} {base loc : Location} {front rest : List Step}
    (hgoes : t.Goes .target base (front ++ rest) (.arrive loc))
    (hrest : rest.any Step.isDown = true) (hbase : t.DirsTo base) :
    t.DirsTo (front.foldl Step.go base)
      ∧ ∀ ending other walk, ending ≠ .place →
        t.Goes ending (front.foldl Step.go base) other walk →
        t.Goes ending base (front ++ other) walk := by
  induction front generalizing base with
  | nil => exact ⟨hbase, fun _ _ _ _ hother => hother⟩
  | cons step later ih =>
      rw [List.cons_append] at hgoes
      cases step with
      | here =>
          cases hgoes with
          | here hgoes =>
              obtain ⟨hdirs, hgo⟩ := ih hgoes hbase
              exact ⟨hdirs, fun _ _ _ hne hother => .here (hgo _ _ _ hne hother)⟩
      | slash =>
          cases hgoes with
          | slash hgoes =>
              obtain ⟨hdirs, hgo⟩ := ih hgoes hbase
              exact ⟨hdirs, fun _ _ _ hne hother => .slash (hgo _ _ _ hne hother)⟩
      | up =>
          cases hgoes with
          | root hdown =>
              -- from the root the walk would fail at the name
              rw [List.any_append, hrest, Bool.or_true] at hdown
              exact absurd rfl hdown
          | up htop hgoes =>
              obtain ⟨hdirs, hgo⟩ := ih hgoes hbase.dropLast
              exact ⟨hdirs, fun _ _ _ hne hother => .up htop (hgo _ _ _ hne hother)⟩
      | down name =>
          rcases hgoes.down_inv with ⟨hnil, -⟩ | ⟨hlook, hdir, hgoes⟩
          · rw [(List.append_eq_nil_iff.1 hnil).2] at hrest
            cases hrest
          obtain ⟨hdirs, hgo⟩ := ih hgoes (hbase.down hdir)
          refine ⟨hdirs, fun ending other walk hne hother => ?_⟩
          have hlater := hgo ending other walk hne hother
          by_cases hnil : later ++ other = []
          · rw [hnil] at hlater
            rw [List.cons_append, hnil, ← hlater.walk]
            exact .entry_or_last hne hlook.isTooLong_eq fun _ hlink => nomatch hdir.symm.trans hlink
          · exact .dir (looksUp_of_ne_nil hnil hne hlook.isTooLong_eq) hdir hlater

/-- A path leads to its place, which is in a directory. -/
theorem Plain.resolve_eq_ok {t : FileTree} (h : t.Plain) {ending : Ending} {p : Path}
    {loc : Location} (hloc : t.resolve ending p = .ok loc) :
    loc = p.place ∧ t.at? loc.dropLast = some .dir := by
  obtain ⟨_, -, hwalk⟩ := Outcome.bind_eq_ok.1 hloc
  exact h.straight (h.walkLinks_eq_ok.1 hwalk) t.dirsTo_root

theorem Plain.entryAt_eq_ok {t : FileTree} (h : t.Plain) {p : Path} {loc : Location}
    (hloc : t.entryAt p = .ok loc) :
    t.at? loc.dropLast = some .dir ∧ (p.endsInSlash = false → loc = p.place) := by
  obtain ⟨_, -, hloc⟩ := Outcome.bind_eq_ok.1 hloc
  refine ⟨(h.resolve_eq_ok hloc).2, fun hslash => ?_⟩
  rw [(h.resolve_eq_ok hloc).1, trimmed_of_endsInSlash hslash]

theorem Plain.goes_keeps {t u : FileTree} (ht : t.Plain) (hu : u.Plain) (hkeeps : KeepsDirs t u)
    {ending : Ending} {base : Location} {steps : List Step} {walk : Walk}
    (h : t.Goes ending base steps walk) : u.Goes ending base steps walk := by
  induction h with
  | done => exact .done
  | here _ ih => exact .here ih
  | slash _ ih => exact .slash ih
  | root hdown => exact .root hdown
  | up hbase _ ih => exact .up hbase ih
  | entry hending => exact .entry hending
  | stop hlook _ => exact .last hlook (hu.noLink _)
  | dir hlook hdir _ ih => exact .dir hlook (hkeeps _ hdir) ih
  | link _ hlink => exact absurd hlink (ht.noLink _ _)

/-- A path leads where it led as long as directories stay. -/
theorem Plain.resolve_keeps {t u : FileTree} (ht : t.Plain) (hu : u.Plain)
    (hkeeps : KeepsDirs t u) {ending : Ending} {p : Path} {loc : Location}
    (h : t.resolve ending p = .ok loc) : u.resolve ending p = .ok loc := by
  obtain ⟨_, htext, hwalk⟩ := Outcome.bind_eq_ok.1 h
  refine Outcome.bind_eq_ok.2 ⟨_, htext, hu.walkLinks_eq_ok.2 ?_⟩
  exact ht.goes_keeps hu hkeeps (ht.walkLinks_eq_ok.1 hwalk)

/-- A path that leads to a file leads to its place, and the file is there. -/
theorem Plain.stat_file {t : FileTree} (h : t.Plain) {p : Path} {content : Content}
    (hstat : t.stat p = .ok (.file content)) :
    t.resolve .target p = .ok p.place ∧ t.at? p.place = some (.file content) := by
  obtain ⟨loc, hloc, hat⟩ := stat_eq_ok hstat
  obtain ⟨rfl, -⟩ := h.resolve_eq_ok hloc
  exact ⟨hloc, hat⟩

theorem stat_of_resolve {t : FileTree} {p : Path} {loc : Location} {node : Node}
    (hloc : t.resolve .target p = .ok loc) (hat : t.at? loc = some node) :
    t.stat p = .ok node := by
  rw [stat, hloc]
  simp only [bind, Except.bind, hat]

theorem isFile_of_resolve {t : FileTree} {p : Path} {loc : Location} {content : Content}
    (hloc : t.resolve .target p = .ok loc) (hat : t.at? loc = some (.file content)) :
    t.isFile p = true := by
  rw [isFile, stat_of_resolve hloc hat]

theorem namesFile_of_stat {t : FileTree} {p : Path} {content : Content}
    (h : t.stat p = .ok (.file content)) : p.NamesFile := by
  obtain ⟨loc, hloc, hat⟩ := stat_eq_ok h
  obtain ⟨_, -, hwalk⟩ := Outcome.bind_eq_ok.1 hloc
  obtain ⟨name, -, -, hlast, -⟩ :=
    namesEntry_of_walkLinks t.dirsTo_root hwalk hat Node.noConfusion
  exact ⟨name, hlast⟩

/-- A walk goes the same way if its end is looked up, unless the end cannot be. -/
theorem Goes.target {t : FileTree} {ending : Ending} {base : Location} {steps : List Step}
    {walk : Walk} (h : t.Goes ending base steps walk)
    (hentry : ending = .entry → ∀ loc, walk = .arrive loc →
      ∃ content, t.lookUp loc = .ok (some (.file content))) : t.Goes .target base steps walk := by
  induction h with
  | done => exact .done
  | here _ ih => exact .here (ih hentry)
  | slash _ ih => exact .slash (ih hentry)
  | root hdown => exact .root hdown
  | up hbase _ ih => exact .up hbase (ih hentry)
  | entry hending =>
      obtain ⟨content, hlook⟩ := hentry hending _ rfl
      exact .stop (looksUp_target [] (short_of_lookUp hlook)) (.inr ⟨content, lookUp_eq_ok hlook⟩)
  | stop hlook hends => exact .stop (hlook.target []) hends
  | dir hlook hdir _ ih => exact .dir (hlook.target _) hdir (ih hentry)
  | link hlook hlink => exact .link (hlook.target _) hlink

theorem Plain.resolve_target {t : FileTree} (h : t.Plain) {ending : Ending} {p : Path}
    {loc : Location} (hloc : t.resolve ending p = .ok loc)
    (hentry : ending = .entry → ∃ content, t.lookUp loc = .ok (some (.file content))) :
    t.resolve .target p = .ok loc := by
  obtain ⟨_, htext, hwalk⟩ := Outcome.bind_eq_ok.1 hloc
  refine Outcome.bind_eq_ok.2 ⟨_, htext, h.walkLinks_eq_ok.2 ?_⟩
  refine (h.walkLinks_eq_ok.1 hwalk).target fun hending other hother => ?_
  rw [← Walk.arrive.inj hother]
  exact hentry hending

/-- A path that names an entry with a file leads to the file. -/
theorem Plain.stat_of_entryAt {t : FileTree} (h : t.Plain) {p : Path} {loc : Location}
    {content : Content} (hentry : t.entryAt p = .ok loc) (hslash : p.endsInSlash = false)
    (hlook : t.lookUp loc = .ok (some (.file content))) : t.stat p = .ok (.file content) := by
  obtain ⟨_, -, hentry⟩ := Outcome.bind_eq_ok.1 hentry
  rw [trimmed_of_endsInSlash hslash] at hentry
  exact stat_of_resolve (h.resolve_target hentry fun _ => ⟨content, hlook⟩) (lookUp_eq_ok hlook)

-- ── Nodes ────────────────────────────────────────────────────────────────────

theorem Plain.dir_above {t : FileTree} (h : t.Plain) {top rest : Location} (hrest : rest ≠ [])
    (hat : t.at? (top ++ rest) ≠ none) : t.at? top = some .dir := by
  induction rest generalizing top with
  | nil => exact absurd rfl hrest
  | cons name later ih =>
      by_cases hlater : later = []
      · rw [hlater] at hat
        exact h.inDir top name hat
      · rw [List.append_cons] at hat
        refine h.inDir top name ?_
        rw [ih hlater hat]
        exact Option.some_ne_none _

/-- What is above something that is there is a directory. -/
theorem Plain.dir_of_prefix {t : FileTree} (h : t.Plain) {top loc : Location} (hpre : top <+: loc)
    (hat : t.at? loc ≠ none) : top = loc ∨ t.at? top = some .dir := by
  obtain ⟨rest, rfl⟩ := hpre
  by_cases hrest : rest = []
  · rw [hrest, List.append_nil]
    exact .inl rfl
  · exact .inr (h.dir_above hrest hat)

/-- There is nothing below what is no directory. -/
theorem Plain.nothing_below {t : FileTree} (h : t.Plain) {top loc : Location}
    (htop : t.at? top ≠ some .dir) (hin : isWithin top loc = true) (hne : loc ≠ top) :
    t.at? loc = none := by
  obtain ⟨rest, rfl⟩ := isWithin_iff.1 hin
  by_contra hat
  refine htop (h.dir_above (fun hrest => hne ?_) hat)
  rw [hrest, List.append_nil]

/-- Changing what is at one place, in a directory and not one itself, leaves a plain tree. -/
theorem Plain.update {t t' : FileTree} (h : t.Plain) {loc : Location}
    (hdir : t.at? loc ≠ some .dir) (hparent : t.at? loc.dropLast = some .dir)
    (hlink : ∀ target, t'.at? loc ≠ some (.link target))
    (hother : ∀ other, other ≠ loc → t'.at? other = t.at? other) : t'.Plain := by
  refine ⟨fun other target => ?_, fun top name hat => ?_⟩
  · by_cases heq : other = loc
    · rw [heq]
      exact hlink target
    · rw [hother other heq]
      exact h.noLink other target
  · have htop : t.at? top = some .dir := by
      by_cases heq : top ++ [name] = loc
      · rw [← heq, List.dropLast_concat] at hparent
        exact hparent
      · rw [hother _ heq] at hat
        exact h.inDir top name hat
    have hne : top ≠ loc := by
      rintro rfl
      exact hdir htop
    rw [hother top hne]
    exact htop

theorem KeepsDirs.update {t t' : FileTree} {loc : Location} (hdir : t.at? loc ≠ some .dir)
    (hother : ∀ other, other ≠ loc → t'.at? other = t.at? other) : KeepsDirs t t' := by
  intro other hat
  have hne : other ≠ loc := by
    rintro rfl
    exact hdir hat
  rw [hother other hne]
  exact hat

theorem ne_nil_of_not_dir {t : FileTree} {loc : Location} (h : t.at? loc ≠ some .dir) :
    loc ≠ [] := by
  rintro rfl
  exact h rfl

theorem Plain.parent {t : FileTree} (h : t.Plain) {loc : Location} (hat : t.at? loc ≠ none) :
    t.at? loc.dropLast = some .dir := by
  rcases List.eq_nil_or_concat loc with rfl | ⟨front, name, rfl⟩
  · rfl
  · rw [List.concat_eq_append] at hat ⊢
    rw [List.dropLast_concat]
    exact h.inDir front name hat

theorem at?_set_of_ne_nil (t : FileTree) {loc : Location} (hloc : loc ≠ []) (other : Location)
    (node : Node) : (t.set loc node).at? other = if other = loc then some node else t.at? other := by
  rw [at?_set]
  by_cases heq : other = loc
  · rw [if_pos heq, if_pos ⟨heq, heq ▸ hloc⟩]
  · rw [if_neg heq, if_neg fun hpos => heq hpos.1]

theorem ne_dir_of_at? {t : FileTree} {loc : Location} {node : Node} (hat : t.at? loc = some node)
    (hnode : node ≠ .dir) : t.at? loc ≠ some .dir := by
  rw [hat]
  exact fun heq => hnode (Option.some.inj heq)

theorem Plain.at?_remove {t : FileTree} (h : t.Plain) {loc : Location}
    (hdir : t.at? loc ≠ some .dir) (other : Location) :
    (t.remove loc).at? other = if other = loc then none else t.at? other := by
  rw [FileTree.at?_remove]
  by_cases heq : other = loc
  · rw [if_pos heq, if_pos ⟨heq ▸ isWithin_self _, heq ▸ ne_nil_of_not_dir hdir⟩]
  · rw [if_neg heq]
    by_cases hin : isWithin loc other = true ∧ other ≠ []
    · rw [if_pos hin, h.nothing_below hdir hin.1 heq]
    · rw [if_neg hin]

/-- The second tree is plain and has the directories of the first. -/
structure Keeping (t t' : FileTree) : Prop where
  plain : t'.Plain
  dirs : KeepsDirs t t'

theorem Plain.keeping {t : FileTree} (h : t.Plain) : Keeping t t := ⟨h, .refl t⟩

theorem Keeping.trans {t u v : FileTree} (htu : Keeping t u) (huv : Keeping u v) : Keeping t v :=
  ⟨huv.plain, htu.dirs.trans huv.dirs⟩

theorem Plain.entryAt_keeps {t u : FileTree} (h : t.Plain) (hkeeping : Keeping t u) {p : Path}
    {loc : Location} (hentry : t.entryAt p = .ok loc) : u.entryAt p = .ok loc := by
  obtain ⟨_, htext, hentry⟩ := Outcome.bind_eq_ok.1 hentry
  exact Outcome.bind_eq_ok.2 ⟨_, htext, h.resolve_keeps hkeeping.plain hkeeping.dirs hentry⟩

theorem Plain.remove {t : FileTree} (h : t.Plain) {loc : Location} {node : Node}
    (hat : t.at? loc = some node) (hnode : node ≠ .dir) : Keeping t (t.remove loc) := by
  have hdir := ne_dir_of_at? hat hnode
  have hother : ∀ other, other ≠ loc → (t.remove loc).at? other = t.at? other := by
    intro other hne
    rw [h.at?_remove hdir, if_neg hne]
  refine ⟨h.update hdir (h.parent ?_) (fun target => ?_) hother, .update hdir hother⟩
  · rw [hat]
    exact Option.some_ne_none _
  · rw [h.at?_remove hdir, if_pos rfl]
    exact (Option.some_ne_none _).symm

/-- A tree stays plain if somebody takes away a directory with all that is below it. -/
theorem Plain.remove_all {t : FileTree} (h : t.Plain) (top : Location) : (t.remove top).Plain := by
  refine ⟨fun loc target hat => ?_, fun loc name hat => ?_⟩
  · rw [FileTree.at?_remove] at hat
    by_cases hgone : isWithin top loc = true ∧ loc ≠ []
    · rw [if_pos hgone] at hat
      cases hat
    · rw [if_neg hgone] at hat
      exact h.noLink loc target hat
  · rw [FileTree.at?_remove] at hat ⊢
    by_cases hgone : isWithin top (loc ++ [name]) = true ∧ loc ++ [name] ≠ []
    · rw [if_pos hgone] at hat
      exact absurd rfl hat
    · rw [if_neg hgone] at hat
      have hstays : ¬ (isWithin top loc = true ∧ loc ≠ []) := fun hin =>
        hgone ⟨isWithin_iff.2 ((isWithin_iff.1 hin.1).trans (List.prefix_append loc [name])),
          List.append_ne_nil_of_right_ne_nil loc (List.cons_ne_nil name [])⟩
      rw [if_neg hstays]
      exact h.inDir loc name hat

theorem Plain.set {t : FileTree} (h : t.Plain) {loc : Location} {node : Node}
    (hdir : t.at? loc ≠ some .dir) (hparent : t.at? loc.dropLast = some .dir)
    (hlink : ∀ target, node ≠ .link target) : Keeping t (t.set loc node) := by
  have hset := fun other => at?_set_of_ne_nil t (ne_nil_of_not_dir hdir) other node
  have hother : ∀ other, other ≠ loc → (t.set loc node).at? other = t.at? other := by
    intro other hne
    rw [hset, if_neg hne]
  refine ⟨h.update hdir hparent (fun target => ?_) hother, .update hdir hother⟩
  rw [hset, if_pos rfl]
  exact fun heq => hlink target (Option.some.inj heq)

/-- Moving what is no directory changes what is at the two places. -/
theorem Plain.at?_move {t : FileTree} (h : t.Plain) {src dst : Location} {node : Node}
    (hsrc : t.at? src = some node) (hnode : node ≠ .dir) (hdst : t.at? dst ≠ some .dir)
    (hne : src ≠ dst) (other : Location) :
    (t.move src dst).at? other
      = if other = dst then some node else if other = src then none else t.at? other := by
  have hsrcdir := ne_dir_of_at? hsrc hnode
  by_cases heq : other = dst
  · rw [if_pos heq, heq]
    exact at?_move_dest (ne_nil_of_not_dir hsrcdir) (ne_nil_of_not_dir hdst) hsrc
  rw [if_neg heq]
  -- only the node itself is moved, so nothing comes elsewhere
  have hleaf : ∀ e ∈ t.nodes.toList.filter fun e => isWithin src e.1, e.1 = src := by
    intro e he
    obtain ⟨hmem, hin⟩ := List.mem_filter.1 he
    by_contra hbelow
    have hnone := h.nothing_below hsrcdir hin hbelow
    rw [at?_of_ne_nil, SortedMap.get?_eq_some_iff.2 hmem] at hnone
    · cases hnone
    · rintro hnil
      rw [hnil] at hin
      exact ne_nil_of_not_dir hsrcdir (List.prefix_nil.1 (isWithin_iff.1 hin))
  have hfold : ∀ (moved : List (Location × Node)) (u : FileTree), (∀ e ∈ moved, e.1 = src) →
      (moved.foldl (fun t e => t.set (dst ++ e.1.drop src.length) e.2) u).at? other
        = u.at? other := by
    intro moved
    induction moved with
    | nil => exact fun _ _ => rfl
    | cons e later ih =>
        intro u hall
        rw [List.foldl_cons, ih _ fun e' he' => hall e' (List.mem_cons_of_mem _ he'), at?_set,
          hall e List.mem_cons_self, List.drop_length, List.append_nil, if_neg fun hpos => heq hpos.1]
  have hremoved := h.at?_remove hsrcdir
  rw [move, hfold _ _ hleaf, (h.remove hsrc hnode).plain.at?_remove, if_neg heq, hremoved]
  rw [hremoved, if_neg (Ne.symm hne)]
  exact hdst

-- ── Operations ───────────────────────────────────────────────────────────────

/-- Removing leaves nothing at the place of the path. -/
theorem Plain.removeFile {t t' : FileTree} (h : t.Plain) {p : Path}
    (hremove : t.removeFile p = .ok t') :
    Keeping t t' ∧ ∀ loc, t'.at? loc = if loc = p.place then none else t.at? loc := by
  obtain ⟨loc, node, hloc, hat, hnode, hslash, rfl⟩ := removeFile_inv hremove
  obtain rfl := (h.entryAt_eq_ok hloc).2 hslash
  exact ⟨h.remove hat hnode, h.at?_remove (ne_dir_of_at? hat hnode)⟩

/-- Writing puts the file at the place of the path. -/
theorem Plain.write {t t' : FileTree} (h : t.Plain) {p : Path} {content : Content}
    (hwrite : t.write p content = .ok t') :
    Keeping t t'
      ∧ ∀ loc, t'.at? loc = if loc = p.place then some (.file content) else t.at? loc := by
  obtain ⟨loc, hloc, hdir, rfl⟩ := write_eq_ok hwrite
  obtain ⟨rfl, hparent⟩ := h.resolve_eq_ok hloc
  exact ⟨h.set hdir hparent fun _ => Node.noConfusion,
    fun loc => at?_set_of_ne_nil t (ne_nil_of_not_dir hdir) loc _⟩

/-- Renaming a file puts it at the place of the second path, and leaves nothing at that of the
    first. -/
theorem Plain.rename {t t' : FileTree} (h : t.Plain) {source dest : Path} {content : Content}
    (hsource : source.endsInSlash = false) (hdest : dest.endsInSlash = false)
    (hne : source.place ≠ dest.place) (hfile : t.at? source.place = some (.file content))
    (hrename : t.rename source dest = .ok t') :
    Keeping t t' ∧ ∀ loc, t'.at? loc = if loc = dest.place then some (.file content)
      else if loc = source.place then none else t.at? loc := by
  obtain ⟨src, dst, node, htests, hcases⟩ := rename_inv hrename
  obtain rfl := (h.entryAt_eq_ok htests.sourceAt).2 hsource
  have hparent := (h.entryAt_eq_ok htests.destAt).1
  obtain rfl := (h.entryAt_eq_ok htests.destAt).2 hdest
  obtain rfl : node = .file content :=
    Option.some.inj ((lookUp_eq_ok htests.found).symm.trans hfile)
  obtain ⟨-, -, rfl⟩ := hcases.resolve_left fun hsame => hne hsame.1
  have hdst : t.at? dest.place ≠ some .dir := by
    intro hdir
    rw [rename_onto_dir htests hne Node.noConfusion hdir] at hrename
    cases hrename
  have hmove := h.at?_move hfile Node.noConfusion hdst hne
  have hremoved := h.at?_remove (ne_dir_of_at? hfile Node.noConfusion)
  refine ⟨?_, hmove⟩
  -- a move is a removal with an update after it
  have hmid := h.remove hfile Node.noConfusion
  have hdst' : (t.remove source.place).at? dest.place ≠ some .dir := by
    rw [hremoved, if_neg (Ne.symm hne)]
    exact hdst
  have hother : ∀ other, other ≠ dest.place →
      (t.move source.place dest.place).at? other = (t.remove source.place).at? other := by
    intro other hother
    rw [hmove, if_neg hother, hremoved]
  refine ⟨hmid.plain.update hdst' (hmid.dirs _ hparent) (fun target => ?_) hother,
    hmid.dirs.trans (.update hdst' hother)⟩
  rw [hmove, if_pos rfl]
  exact fun heq => Node.noConfusion (Option.some.inj heq)

/-- Creating directories leaves a plain tree. -/
theorem Plain.createDir {t t' : FileTree} (h : t.Plain) {p : Path} (hcreate : t.createDir p = .ok t') :
    t'.Plain := by
  obtain ⟨loc, hloc, hnone, rfl⟩ := createDir_eq_ok hcreate
  have hdir : t.at? loc ≠ some .dir := by
    rw [hnone]
    exact (Option.some_ne_none _).symm
  exact (h.set hdir (h.entryAt_eq_ok hloc).1 fun _ => Node.noConfusion).plain

theorem Plain.createDirs {t : FileTree} (h : t.Plain) (paths : List Path) :
    (t.createDirs paths).2.Plain := by
  induction paths generalizing t with
  | nil => exact h
  | cons p shorter ih =>
      rw [FileTree.createDirs]
      cases hfirst : t.createDir p with
      | ok u => exact h.createDir hfirst
      | error f =>
          cases f with
          | notFound =>
              have hshorter := ih h
              cases hrest : t.createDirs shorter with
              | mk result u =>
                  rw [hrest] at hshorter
                  cases result with
                  | error f => exact hshorter
                  | ok _ =>
                      cases hagain : u.createDir p with
                      | ok v => simpa only [hagain] using Plain.createDir hshorter hagain
                      | error f => simpa only [hagain] using hshorter
          | _ => exact h

theorem Plain.createDirAll {t : FileTree} (h : t.Plain) (p : Path) :
    Keeping t (t.createDirAll p).2 :=
  ⟨h.createDirs p.ancestors, (createDirAll_grows t p).keepsDirs⟩

-- ── Paths that never go up ───────────────────────────────────────────────────

theorem prefix_foldl_go {steps : List Step} (h : .up ∉ steps) (base : Location) :
    base <+: steps.foldl Step.go base := by
  induction steps generalizing base with
  | nil => exact List.prefix_refl base
  | cons step later ih =>
      rw [List.mem_cons, not_or] at h
      have hlater := ih h.2 (step.go base)
      cases step with
      | here | slash => exact hlater
      | up => exact absurd rfl h.1
      | down name => exact (List.prefix_append base [name]).trans hlater

/-- Steps that never go up only pass what is above their end, or the end itself: they lead there
    in every plain tree that has the same at their end. -/
theorem Plain.goes_descends {t u : FileTree} (ht : t.Plain) (hu : u.Plain) {ending : Ending}
    {base loc : Location} {steps : List Step} (h : t.Goes ending base steps (.arrive loc))
    (hbase : t.DirsTo base) (hup : .up ∉ steps) (hloc : u.at? loc = t.at? loc)
    (hthere : u.at? loc ≠ none) : u.Goes ending base steps (.arrive loc) := by
  generalize hwalk : Walk.arrive loc = walk at h ⊢
  induction h with
  | done => exact .done
  | here _ ih => exact .here (ih hbase (fun hmem => hup (List.mem_cons_of_mem _ hmem)) hwalk)
  | slash _ ih => exact .slash (ih hbase (fun hmem => hup (List.mem_cons_of_mem _ hmem)) hwalk)
  | root | up => exact absurd List.mem_cons_self hup
  | entry hending => exact .entry hending
  | stop hlook _ => exact .last hlook (hu.noLink _)
  | @dir base name later walk hlook hdir rest ih =>
      have hlater : .up ∉ later := fun hmem => hup (List.mem_cons_of_mem _ hmem)
      refine .dir hlook ?_ (ih (hbase.down hdir) hlater hwalk)
      subst hwalk
      have habove : base ++ [name] <+: loc := by
        rw [(ht.straight rest (hbase.down hdir)).1]
        exact prefix_foldl_go hlater _
      rcases hu.dir_of_prefix habove hthere with heq | hdir'
      · rw [heq] at hdir ⊢
        exact hloc.trans hdir
      · exact hdir'
  | link _ hlink => exact absurd hlink (ht.noLink _ _)

/-- A path that never goes up leads to what it leads to wherever that is in its place. -/
theorem Plain.stat_of_descends {t u : FileTree} (ht : t.Plain) (hu : u.Plain) {p : Path}
    (hp : p.Descends) {node : Node} (hstat : t.stat p = .ok node)
    (hplace : u.at? p.place = some node) : u.stat p = .ok node := by
  obtain ⟨loc, hloc, hat⟩ := stat_eq_ok hstat
  obtain ⟨rfl, -⟩ := ht.resolve_eq_ok hloc
  obtain ⟨_, htext, hwalk⟩ := Outcome.bind_eq_ok.1 hloc
  have hthere : u.at? p.place ≠ none := by
    rw [hplace]
    exact Option.some_ne_none node
  have hgoes := ht.goes_descends hu (ht.walkLinks_eq_ok.1 hwalk) t.dirsTo_root hp
    (hplace.trans hat.symm) hthere
  exact stat_of_resolve (Outcome.bind_eq_ok.2 ⟨_, htext, hu.walkLinks_eq_ok.2 hgoes⟩) hplace

/-- A path that never goes up leads to a file wherever that file is in its place. -/
theorem Plain.isFile_of_descends {t u : FileTree} (ht : t.Plain) (hu : u.Plain) {p : Path}
    (hp : p.Descends) (hfile : t.isFile p = true) (hplace : u.at? p.place = t.at? p.place) :
    u.isFile p = true := by
  obtain ⟨content, hstat⟩ := stat_of_isFile hfile
  rw [isFile, ht.stat_of_descends hu hp hstat (hplace.trans (ht.stat_file hstat).2)]

/-- A path that never goes up leads to whatever file is in its place. -/
theorem Plain.isFile_of_place {t u : FileTree} (ht : t.Plain) (hu : u.Plain) {p : Path}
    (hp : p.Descends) (hfile : t.isFile p = true) {content : Content}
    (hat : u.at? p.place = some (.file content)) : u.isFile p = true := by
  obtain ⟨other, hstat⟩ := stat_of_isFile hfile
  obtain ⟨hleads, hthere⟩ := ht.stat_file hstat
  have hdir := ne_dir_of_at? hthere Node.noConfusion
  -- the first tree, with the content that the second has there
  have hkeeping : Keeping t (t.set p.place (.file content)) :=
    ht.set hdir (ht.parent (by rw [hthere]; exact Option.some_ne_none _)) fun _ => Node.noConfusion
  have hset : (t.set p.place (.file content)).at? p.place = some (.file content) := by
    rw [at?_set_of_ne_nil t (ne_nil_of_not_dir hdir), if_pos rfl]
  have hleads' := ht.resolve_keeps hkeeping.plain hkeeping.dirs hleads
  exact hkeeping.plain.isFile_of_descends hu hp (isFile_of_resolve hleads' hset)
    (hat.trans hset.symm)

/-- Two paths that lead to files stand for one file if they have one place. -/
theorem Plain.samePlace_eq {t : FileTree} (h : t.Plain) {p q : Path} (hp : t.isFile p = true)
    (hq : t.isFile q = true) : t.samePlace p q = (p.place == q.place) := by
  have hidentity : ∀ {p : Path}, t.isFile p = true → t.identity? p = some p.place := by
    intro p hfile
    obtain ⟨content, hstat⟩ := stat_of_isFile hfile
    obtain ⟨hleads, hat⟩ := h.stat_file hstat
    have hcanonical : t.canonicalize p = .ok p.place := by
      rw [canonicalize, hleads]
      simp only [bind, Except.bind, hat]
    rw [identity?, hcanonical]
  rw [samePlace, hidentity hp, hidentity hq]

end FileTree

end Nomenclator.Files
