import Nomenclator.Proofs.Files.Emptying

/-! # Room — where files can be put

    A path has room for a file if it ends in a name, leads to its place, and no
    directory is there.  In a plain tree this is enough for every operation on the
    path to succeed: an older file can be removed, a new one written or put there by
    another name, and the directory of the path need not be created.  Each of them
    leaves room where it was, so that a job can be followed from one operation to the
    next. -/

namespace Nomenclator.Files

/-- A path that ends in a name does so apart from slashes after it, of which there are none. -/
theorem Path.NamesFile.endsInName {p : Path} (h : p.NamesFile) :
    p.endsInSlash = false ∧ p.endsInName = true := by
  obtain ⟨name, hname⟩ := h
  have hslash := FileTree.endsInSlash_of_getLast? hname
  refine ⟨hslash, ?_⟩
  rw [Path.endsInName, Path.lastStep?, FileTree.trimmed_of_endsInSlash hslash, hname]
  rfl

namespace FileTree

theorem holdsNul_of_checkText {p : Path} (h : checkText p = .ok ()) : p.holdsNul = false := by
  rw [checkText] at h
  by_cases hnul : p.holdsNul = true
  · rw [if_pos hnul] at h
    cases h
  · exact Bool.eq_false_iff.2 hnul

/-- Where steps without a slash at their end lead, a file can be put. -/
theorem Goes.place {t : FileTree} {base : Location} {steps : List Step} {walk : Walk}
    (h : t.Goes .target base steps walk) (hlast : steps.getLast? ≠ some .slash) :
    t.Goes .place base steps walk := by
  have hlater : ∀ {step : Step} {later : List Step}, (step :: later).getLast? ≠ some .slash →
      later.getLast? ≠ some .slash := by
    intro step later hne hslash
    exact hne (by rw [List.getLast?_cons, hslash]; rfl)
  have hlook : ∀ {name : Name} {later : List Step}, LooksUp .target name later →
      later.getLast? ≠ some .slash → LooksUp .place name later := by
    intro name later hlook hne
    refine ⟨(fun hentry => nomatch (Bool.and_eq_true_iff.1 hentry).2), fun hslash => hne ?_,
      hlook.short⟩
    rw [eq_of_beq (Bool.and_eq_true_iff.1 hslash).1]
    rfl
  induction h with
  | done => exact .done
  | here _ ih => exact .here (ih (hlater hlast))
  | slash _ ih => exact .slash (ih (hlater hlast))
  | root hdown => exact .root hdown
  | up hbase _ ih => exact .up hbase (ih (hlater hlast))
  | entry hending => cases hending
  | stop hlooked hends => exact .stop (hlook hlooked (hlater hlast)) hends
  | dir hlooked hdir _ ih => exact .dir (hlook hlooked (hlater hlast)) hdir (ih (hlater hlast))
  | link hlooked hlink => exact .link (hlook hlooked (hlater hlast)) hlink

/-- There is room for a file: the path ends in a name and leads to its place, and no directory
    is there. -/
structure HasRoom (t : FileTree) (p : Path) : Prop where
  namesFile : p.NamesFile
  leads : t.resolve .target p = .ok p.place
  free : t.at? p.place ≠ some .dir

namespace HasRoom

variable {t u : FileTree} {p : Path} (h : t.HasRoom p) (hplain : t.Plain)
include h hplain

/-- Room stays as long as no directory comes to its place. -/
theorem keeps (hkeeping : t.Keeping u) (hfree : u.at? p.place ≠ some .dir) : u.HasRoom p :=
  ⟨h.namesFile, hplain.resolve_keeps hkeeping.plain hkeeping.dirs h.leads, hfree⟩

theorem of_sheds (hkeeping : t.Keeping u) (hsheds : t.Sheds u) : u.HasRoom p :=
  h.keeps hplain hkeeping fun hdir => h.free (hsheds _ _ hdir)

/-- In the place of the path there is a file or nothing. -/
theorem endsAt : t.EndsAt p.place := by
  rcases t.endsAt_or p.place with hends | hdir | ⟨target, hlink⟩
  · exact hends
  · exact absurd hdir h.free
  · exact absurd hlink (hplain.noLink _ target)

/-- Any content can be written there. -/
theorem write (content : Content) : ∃ u, t.write p content = .ok u := by
  obtain ⟨_, htext, hwalk⟩ := Outcome.bind_eq_ok.1 h.leads
  obtain ⟨name, hname⟩ := h.namesFile
  have hlast : p.steps.getLast? ≠ some .slash := by
    rw [hname]
    exact fun hslash => nomatch hslash
  have hplace : t.resolve .place p = .ok p.place := Outcome.bind_eq_ok.2
    ⟨_, htext, hplain.walkLinks_eq_ok.2 ((hplain.walkLinks_eq_ok.1 hwalk).place hlast)⟩
  refine ⟨t.set p.place (.file content), Outcome.bind_eq_ok.2 ⟨p.place, hplace, ?_⟩⟩
  rcases h.endsAt hplain with hat | ⟨older, hat⟩
  · rw [hat]
  · rw [hat]

/-- Writing a file leaves room where there was. -/
theorem after_write {other : Path} {content : Content} (hwrite : t.write other content = .ok u) :
    u.HasRoom p := by
  obtain ⟨hkeeping, hat⟩ := hplain.write hwrite
  refine h.keeps hplain hkeeping fun hdir => ?_
  rw [hat] at hdir
  split at hdir
  · cases hdir
  · exact h.free hdir

/-- A file that is there can be removed, and else removing finds nothing. -/
theorem removeFile : (∃ u, t.removeFile p = .ok u)
    ∨ (t.removeFile p = .error .notFound ∧ t.at? p.place = none) := by
  obtain ⟨-, hentry, hlook⟩ := hplain.entry_of_target h.leads
  rcases h.endsAt hplain with hat | ⟨content, hat⟩
  · rw [hat] at hlook
    refine .inr ⟨?_, hat⟩
    rw [FileTree.removeFile, hentry]
    simp only [bind, Except.bind, hlook]
  · rw [hat] at hlook
    exact .inl ⟨_, removeFile_of_lookUp hentry hlook Node.noConfusion h.namesFile.endsInName.1⟩

/-- A file can be put there by renaming another. -/
theorem rename {source : Path} (hsource : t.HasRoom source) {content : Content}
    (hfile : t.at? source.place = some (.file content)) (hne : source.place ≠ p.place) :
    ∃ u, t.rename source p = .ok u := by
  obtain ⟨-, hsourceAt, hsourceLook⟩ := hplain.entry_of_target hsource.leads
  obtain ⟨-, hdestAt, hdestLook⟩ := hplain.entry_of_target h.leads
  obtain ⟨hslash, hname⟩ := h.namesFile.endsInName
  obtain ⟨hslash', hname'⟩ := hsource.namesFile.endsInName
  have hnul := holdsNul_of_checkText (resolve_eq_ok_iff.1 h.leads).1
  have hnul' := holdsNul_of_checkText (resolve_eq_ok_iff.1 hsource.leads).1
  -- neither place is below the other: it would be below a file, or a directory would be there
  have hinto : ¬ isBelow source.place p.place = true := by
    intro hbelow
    obtain ⟨hin, hother⟩ := Bool.and_eq_true_iff.1 hbelow
    obtain ⟨rest, hrest⟩ := isWithin_iff.1 hin
    have hdir := (hplain.resolve_eq_ok h.leads).2
    have habove : source.place <+: p.place.dropLast := by
      rcases List.eq_nil_or_concat rest with rfl | ⟨front, last, rfl⟩
      · exact absurd ((List.append_nil _).symm.trans hrest) (bne_iff_ne.1 hother)
      · rw [← hrest, List.concat_eq_append, ← List.append_assoc, List.dropLast_concat]
        exact List.prefix_append _ _
    rcases hplain.dir_of_prefix habove fun hnone => nomatch hnone.symm.trans hdir with heq | habove
    · exact hsource.free (heq ▸ hdir)
    · exact hsource.free habove
  have honto : ¬ isBelow p.place source.place = true := by
    intro hbelow
    obtain ⟨hin, hother⟩ := Bool.and_eq_true_iff.1 hbelow
    have hthere : t.at? source.place ≠ none := by
      rw [hfile]
      exact Option.some_ne_none _
    rcases hplain.dir_of_prefix (isWithin_iff.1 hin) hthere with heq | hdir
    · exact bne_iff_ne.1 hother heq
    · exact h.free hdir
  rw [hfile] at hsourceLook
  refine ⟨t.move source.place p.place, ?_⟩
  rw [FileTree.rename, hnul, hnul', if_neg (by decide)]
  refine Outcome.bind_eq_ok.2 ⟨_, hsourceAt, Outcome.bind_eq_ok.2 ⟨_, hdestAt, ?_⟩⟩
  rw [hname, hname', if_neg (by decide)]
  refine Outcome.bind_eq_ok.2 ⟨_, hsourceLook, Outcome.bind_eq_ok.2 ⟨_, hdestLook, ?_⟩⟩
  rw [hslash, hslash', if_neg (fun hbad => by simp at hbad), if_neg hinto, if_neg honto, if_neg hne]
  rcases h.endsAt hplain with hat | ⟨older, hat⟩
  · rw [hat]
  · rw [hat]

end HasRoom

-- ── Files that get to their places by way of others ──────────────────────────

/-- In the second tree there is a file at one path, which another path led to on the way. -/
structure Put (t u : FileTree) (temporary dest : Path) (content : Content) : Prop where
  keeping : t.Keeping u
  at? : ∀ loc, u.at? loc = if loc = dest.place then some (.file content)
    else if loc = temporary.place then none else t.at? loc

/-- **A file can be put where there is room** by way of a temporary file. -/
theorem HasRoom.put {t : FileTree} {temporary dest : Path} (hdest : t.HasRoom dest)
    (hplain : t.Plain) (htemporary : t.HasRoom temporary) (hne : temporary.place ≠ dest.place)
    (content : Content) : ∃ v u, t.write temporary content = .ok v
      ∧ v.rename temporary dest = .ok u ∧ Put t u temporary dest content := by
  obtain ⟨v, hwrite⟩ := htemporary.write hplain content
  obtain ⟨hkeeping, hat⟩ := hplain.write hwrite
  have hthere : v.at? temporary.place = some (.file content) := by rw [hat, if_pos rfl]
  have hfree : v.at? dest.place ≠ some .dir := by
    rw [hat, if_neg (Ne.symm hne)]
    exact hdest.free
  have htemporary' := htemporary.keeps hplain hkeeping fun hdir => nomatch hthere.symm.trans hdir
  obtain ⟨u, hrename⟩ :=
    (hdest.keeps hplain hkeeping hfree).rename hkeeping.plain htemporary' hthere hne
  obtain ⟨hkeeping', hat'⟩ := hkeeping.plain.rename htemporary.namesFile.endsInName.1
    hdest.namesFile.endsInName.1 hne hthere hrename
  refine ⟨v, u, hwrite, hrename, hkeeping.trans hkeeping', fun loc => ?_⟩
  rw [hat', hat]
  by_cases heq : loc = temporary.place
  · rw [if_pos heq, if_pos heq]
  · rw [if_neg heq, if_neg heq, if_neg heq]

namespace Put

variable {t u : FileTree} {temporary dest : Path} {content : Content}
  (h : Put t u temporary dest content) (hplain : t.Plain)
include h hplain

/-- It is found there. -/
theorem stat (hdest : t.HasRoom dest) : u.stat dest = .ok (.file content) := by
  refine stat_of_resolve (hplain.resolve_keeps h.keeping.plain h.keeping.dirs hdest.leads) ?_
  rw [h.at?, if_pos rfl]

/-- Other paths lead to the files that they led to. -/
theorem stat_other {p : Path} {other : Content} (hstat : t.stat p = .ok (.file other))
    (hdest : p.place ≠ dest.place) (htemporary : p.place ≠ temporary.place) :
    u.stat p = .ok (.file other) := by
  obtain ⟨hleads, hat⟩ := hplain.stat_file hstat
  refine stat_of_resolve (hplain.resolve_keeps h.keeping.plain h.keeping.dirs hleads) ?_
  rw [h.at?, if_neg hdest, if_neg htemporary]
  exact hat

/-- There is room where there was. -/
theorem room {p : Path} (hp : t.HasRoom p) : u.HasRoom p := by
  refine hp.keeps hplain h.keeping fun hdir => ?_
  rw [h.at?] at hdir
  split at hdir
  · cases hdir
  · split at hdir
    · cases hdir
    · exact hp.free hdir

end Put

end FileTree

end Nomenclator.Files
