import Mathlib.Data.List.Induction
import Nomenclator.Proofs.LineTable

/-! # Line look-ups — from what decompilers report to the line that is found

    A line of a class is looked up in a table that has been put together from
    reports.  Three rules decide which written line is found, one in each layer:

    * **Reports** — of the instructions on one line the greatest counts
      (`get?_compose`);
    * **Tables** — of the reports on one class the last that maps a line counts
      for this line (`get?_rowsOf_ofReports`, by induction from the right, since
      an insertion is the last thing that has happened to a table);
    * **Look-ups** — of the mapped lines the nearest at or before the given one
      counts (`lookup_eq_some_iff`).

    `lookup_ofReports` puts them together. -/

namespace Nomenclator

-- ── Reports ──────────────────────────────────────────────────────────────────

namespace LineReport

variable (report : LineReport)

/-- The instruction is in both tables, and on the given line of the compiled class. -/
def Places (source instruction : UInt32) : Prop :=
  report.compiled.get? instruction = some source ∧ instruction ∈ report.written.keys

/-- Some instruction in both tables is on the line. -/
def Maps (source : UInt32) : Prop := ∃ instruction, report.Places source instruction

/-- The instruction is the greatest of those in both tables that are on the line. -/
def Decides (source instruction : UInt32) : Prop :=
  report.Places source instruction ∧ ∀ other, report.Places source other → other ≤ instruction

/-- The entries of the second table whose instructions are on the line. -/
def entriesOn (source : UInt32) : List (UInt32 × UInt32) :=
  report.written.toList.filter fun e => report.compiled.get? e.1 = some source

theorem mem_entriesOn {source : UInt32} {e : UInt32 × UInt32} :
    e ∈ report.entriesOn source
      ↔ report.written.get? e.1 = some e.2 ∧ report.compiled.get? e.1 = some source := by
  obtain ⟨instruction, dest⟩ := e
  rw [entriesOn, List.mem_filter, decide_eq_true_iff, ← SortedMap.get?_eq_some_iff]

theorem places_iff {source instruction : UInt32} :
    report.Places source instruction ↔ ∃ dest, (instruction, dest) ∈ report.entriesOn source := by
  rw [Places, SortedMap.mem_keys_iff, Option.isSome_iff_exists]
  constructor
  · rintro ⟨hline, dest, hdest⟩
    exact ⟨dest, report.mem_entriesOn.2 ⟨hdest, hline⟩⟩
  · rintro ⟨dest, hmem⟩
    obtain ⟨hdest, hline⟩ := report.mem_entriesOn.1 hmem
    exact ⟨hline, dest, hdest⟩

theorem get?_compose_eq (source : UInt32) :
    report.compose.get? source = (report.entriesOn source).getLast?.map Prod.snd := by
  have hrows : ∀ entries : List (UInt32 × UInt32),
      (entries.filterMap fun e => (report.compiled.get? e.1).map fun line => (line, e.2)).filter
          (fun row => row.1 = source)
        = (entries.filter fun e => report.compiled.get? e.1 = some source).map
            fun e => (source, e.2) := by
    intro entries
    induction entries with
    | nil => rfl
    | cons e later ih =>
        rw [List.filterMap_cons, List.filter_cons]
        cases hline : report.compiled.get? e.1 with
        | none => simpa using ih
        | some line =>
            by_cases hsame : line = source
            · simp [hsame, ih]
            · simp [hsame, ih]
  rw [compose, SortedMap.get?_ofList, hrows, List.getLast?_map, Option.map_map, entriesOn]
  rfl

/-- **Of the instructions on one line the greatest counts.** -/
theorem get?_compose (source dest : UInt32) :
    report.compose.get? source = some dest
      ↔ ∃ instruction, report.Decides source instruction
          ∧ report.written.get? instruction = some dest := by
  have hgreatest := fun e => SortedMap.getLast?_eq_some_iff_greatest (e := e)
    (report.written.increasing.filter fun e => report.compiled.get? e.1 = some source)
  rw [get?_compose_eq, Option.map_eq_some_iff]
  constructor
  · rintro ⟨⟨instruction, dest'⟩, hlast, rfl⟩
    obtain ⟨hmem, hall⟩ := (hgreatest _).1 hlast
    refine ⟨instruction, ⟨report.places_iff.2 ⟨dest', hmem⟩, fun other hother => ?_⟩,
      (report.mem_entriesOn.1 hmem).1⟩
    obtain ⟨d, hd⟩ := report.places_iff.1 hother
    exact Std.isLE_compare.1 (hall (other, d) hd)
  · rintro ⟨instruction, ⟨hplaces, hall⟩, hdest⟩
    refine ⟨(instruction, dest), (hgreatest _).2
      ⟨report.mem_entriesOn.2 ⟨hdest, hplaces.1⟩, fun other hother => ?_⟩, rfl⟩
    exact Std.isLE_compare.2 (hall other.1 (report.places_iff.2 ⟨other.2, hother⟩))

theorem isSome_get?_compose (source : UInt32) :
    (report.compose.get? source).isSome = true ↔ report.Maps source := by
  rw [get?_compose_eq, Option.isSome_map, Option.isSome_iff_ne_none, ne_eq,
    List.getLast?_eq_none_iff, Maps]
  constructor
  · intro hne
    obtain ⟨e, he⟩ := List.exists_mem_of_ne_nil _ hne
    exact ⟨e.1, report.places_iff.2 ⟨e.2, he⟩⟩
  · rintro ⟨instruction, hplaces⟩
    obtain ⟨dest, hmem⟩ := report.places_iff.1 hplaces
    exact List.ne_nil_of_mem hmem

end LineReport

namespace LineTable

-- ── Tables ───────────────────────────────────────────────────────────────────

/-- Inserting rows extends those of one class and leaves the others. -/
theorem rowsOf_insert (table : LineTable) (name other : String) (rows : LineRows) :
    (table.insert name rows).rowsOf other
      = if other = name then (table.rowsOf name).insertAll rows.toList else table.rowsOf other := by
  rw [LineTable.insert, rowsOf, SortedMap.get?_insert]
  by_cases hsame : other = name
  · rw [if_pos hsame, if_pos hsame]
    rfl
  · rw [if_neg hsame, if_neg hsame]
    rfl

/-- **Insertions for different classes commute.** -/
theorem insert_comm (table : LineTable) {name other : String} (h : name ≠ other)
    (rows rows' : LineRows) :
    (table.insert name rows).insert other rows' = (table.insert other rows').insert name rows := by
  refine congrArg LineTable.mk ?_
  rw [rowsOf_insert, rowsOf_insert, if_neg (Ne.symm h), if_neg h]
  exact SortedMap.insert_comm table.classes h _ _

/-- The table that reports on classes give, taken in their order. -/
def ofReports (reports : List (String × LineReport)) : LineTable :=
  insertEach {} (reports.map fun e => (e.1, e.2.compose))

theorem ofReports_concat (reports : List (String × LineReport)) (last : String × LineReport) :
    ofReports (reports ++ [last]) = (ofReports reports).insert last.1 last.2.compose := by
  rw [ofReports, insertEach, List.map_append, List.foldl_append]
  rfl

section Reports

variable (reports : List (String × LineReport)) (name : String)

/-- Some report on the class maps the line. -/
def Mapped (source : UInt32) : Prop := ∃ report, (name, report) ∈ reports ∧ report.Maps source

/-- The report is the last of those on the class that map the line. -/
def IsLast (source : UInt32) (report : LineReport) : Prop :=
  ∃ before after, reports = before ++ (name, report) :: after ∧ report.Maps source
    ∧ ∀ later, (name, later) ∈ after → ¬ later.Maps source

/-- The line is the greatest of the mapped lines of the class at or before the given one. -/
def IsNearest (line source : UInt32) : Prop :=
  source ≤ line ∧ Mapped reports name source
    ∧ ∀ other, other ≤ line → Mapped reports name other → other ≤ source

variable {reports name} {source : UInt32}

theorem mapped_concat {last : String × LineReport} :
    Mapped (reports ++ [last]) name source
      ↔ Mapped reports name source ∨ (last.1 = name ∧ last.2.Maps source) := by
  constructor
  · rintro ⟨report, hmem, hmaps⟩
    rcases List.mem_append.1 hmem with hold | hlast
    · exact .inl ⟨report, hold, hmaps⟩
    · obtain rfl := List.mem_singleton.1 hlast
      exact .inr ⟨rfl, hmaps⟩
  · rintro (⟨report, hmem, hmaps⟩ | ⟨rfl, hmaps⟩)
    · exact ⟨report, List.mem_append_left _ hmem, hmaps⟩
    · exact ⟨last.2, List.mem_append_right _ List.mem_cons_self, hmaps⟩

/-- The last report of all counts if it maps the line of the class. -/
theorem isLast_concat_of_maps {last report : LineReport} (hmaps : last.Maps source) :
    IsLast (reports ++ [(name, last)]) name source report ↔ report = last := by
  constructor
  · rintro ⟨before, after, hsplit, -, hnone⟩
    rcases List.eq_nil_or_concat after with rfl | ⟨front, e, rfl⟩
    · exact (Prod.mk.inj (List.singleton_inj.1 (List.append_inj' hsplit rfl).2)).2.symm
    · rw [List.concat_eq_append, ← List.cons_append, ← List.append_assoc] at hsplit
      obtain rfl := List.singleton_inj.1 (List.append_inj' hsplit rfl).2
      exact absurd hmaps (hnone last (by simp))
  · rintro rfl
    exact ⟨reports, [], rfl, hmaps, fun _ h => nomatch h⟩

/-- Otherwise it does not count. -/
theorem isLast_concat_of_not {last : String × LineReport} {report : LineReport}
    (hnot : ¬ (last.1 = name ∧ last.2.Maps source)) :
    IsLast (reports ++ [last]) name source report ↔ IsLast reports name source report := by
  constructor
  · rintro ⟨before, after, hsplit, hmaps, hnone⟩
    rcases List.eq_nil_or_concat after with rfl | ⟨front, e, rfl⟩
    · obtain rfl := List.singleton_inj.1 (List.append_inj' hsplit rfl).2
      exact absurd ⟨rfl, hmaps⟩ hnot
    · rw [List.concat_eq_append, ← List.cons_append, ← List.append_assoc] at hsplit
      refine ⟨before, front, (List.append_inj' hsplit rfl).1, hmaps, fun later hlater => ?_⟩
      exact hnone later (by rw [List.concat_eq_append]; exact List.mem_append_left _ hlater)
  · rintro ⟨before, after, rfl, hmaps, hnone⟩
    refine ⟨before, after ++ [last], by rw [List.append_assoc, List.cons_append], hmaps,
      fun later hlater hm => ?_⟩
    rcases List.mem_append.1 hlater with hold | hself
    · exact hnone later hold hm
    · obtain rfl := List.mem_singleton.1 hself
      exact hnot ⟨rfl, hm⟩

/-- The lines of a class that have a row are the mapped ones. -/
theorem mem_keys_rowsOf_ofReports :
    source ∈ ((ofReports reports).rowsOf name).keys ↔ Mapped reports name source := by
  induction reports using List.reverseRecOn with
  | nil =>
      constructor
      · intro h
        exact absurd h List.not_mem_nil
      · rintro ⟨report, hmem, -⟩
        exact absurd hmem List.not_mem_nil
  | append_singleton before last ih =>
      rw [SortedMap.mem_keys_iff] at ih ⊢
      rw [mapped_concat, ofReports_concat, rowsOf_insert, ← ih]
      by_cases hname : name = last.1
      · rw [if_pos hname, SortedMap.get?_insertAll_toList, Option.isSome_or, Bool.or_eq_true,
          LineReport.isSome_get?_compose, ← hname, or_comm, and_iff_right rfl]
      · rw [if_neg hname, or_iff_left fun h => hname h.1.symm]

/-- **Of the reports on one class the last that maps a line counts for it.** -/
theorem get?_rowsOf_ofReports {dest : UInt32} :
    ((ofReports reports).rowsOf name).get? source = some dest
      ↔ ∃ report, IsLast reports name source report ∧ report.compose.get? source = some dest := by
  induction reports using List.reverseRecOn with
  | nil =>
      constructor
      · intro h
        exact nomatch (show none = some dest from h)
      · rintro ⟨report, ⟨before, after, hsplit, -⟩, -⟩
        exact absurd hsplit (by simp)
  | append_singleton before last ih =>
      rw [ofReports_concat, rowsOf_insert]
      by_cases hcounts : last.1 = name ∧ last.2.Maps source
      · obtain ⟨rfl, hmaps⟩ := hcounts
        obtain ⟨there, hthere⟩ :=
          Option.isSome_iff_exists.1 ((last.2.isSome_get?_compose source).2 hmaps)
        have hlast : ∀ report,
            IsLast (before ++ [(last.1, last.2)]) last.1 source report ↔ report = last.2 :=
          fun report => isLast_concat_of_maps hmaps
        rw [if_pos rfl, SortedMap.get?_insertAll_toList, hthere, Option.some_or]
        simp only [hlast, exists_eq_left, hthere]
      · simp only [isLast_concat_of_not hcounts]
        by_cases hname : name = last.1
        · have hnone : last.2.compose.get? source = none := by
            rw [← Option.not_isSome_iff_eq_none, LineReport.isSome_get?_compose]
            exact fun hmaps => hcounts ⟨hname.symm, hmaps⟩
          rw [if_pos hname, SortedMap.get?_insertAll_toList, hnone, Option.none_or, ← hname, ih]
        · rw [if_neg hname, ih]

end Reports

-- ── Look-ups ─────────────────────────────────────────────────────────────────

theorem lookup_eq (table : LineTable) (name : String) (line : UInt32) :
    table.lookup name line = ((table.rowsOf name).floor? line).map Prod.snd := by
  rw [lookup, rowsOf]
  cases table.classes.get? name with
  | none => rfl
  | some rows => rfl

section Lookups

variable {reports : List (String × LineReport)} {name : String}

/-- Nothing is found where no line at or before is mapped. -/
theorem lookup_eq_none_iff {line : UInt32} :
    (ofReports reports).lookup name line = none
      ↔ ¬ ∃ source, source ≤ line ∧ Mapped reports name source := by
  rw [lookup_eq, Option.map_eq_none_iff, SortedMap.floor?_eq_none_iff, not_exists]
  refine forall_congr' fun source => ?_
  rw [mem_keys_rowsOf_ofReports, Std.isLE_compare, not_and']

/-- **Of the mapped lines the nearest at or before the given one counts.** -/
theorem lookup_eq_some_iff {line dest : UInt32} :
    (ofReports reports).lookup name line = some dest
      ↔ ∃ source, IsNearest reports name line source
          ∧ ((ofReports reports).rowsOf name).get? source = some dest := by
  have hfloor : ∀ e : UInt32 × UInt32, ((ofReports reports).rowsOf name).floor? line = some e
      ↔ IsNearest reports name line e.1
        ∧ ((ofReports reports).rowsOf name).get? e.1 = some e.2 := by
    intro e
    rw [SortedMap.floor?_eq_some_iff, ← SortedMap.get?_eq_some_iff]
    simp only [mem_keys_rowsOf_ofReports, Std.isLE_compare, IsNearest]
    constructor
    · rintro ⟨hget, hle, hall⟩
      refine ⟨⟨hle, ?_, fun other hother hmapped => hall other hmapped hother⟩, hget⟩
      exact mem_keys_rowsOf_ofReports.1 (SortedMap.mem_keys_iff.2 (by rw [hget]; rfl))
    · rintro ⟨⟨hle, -, hall⟩, hget⟩
      exact ⟨hget, hle, fun other hmapped hother => hall other hother hmapped⟩
  rw [lookup_eq, Option.map_eq_some_iff]
  constructor
  · rintro ⟨e, he, rfl⟩
    exact ⟨e.1, (hfloor e).1 he⟩
  · rintro ⟨source, hsource⟩
    exact ⟨(source, dest), (hfloor (source, dest)).2 hsource, rfl⟩

/-- Two lines have the same nearest mapped lines if no line after the one and up to the other is
    mapped. -/
theorem isNearest_congr {line later : UInt32} (hle : line ≤ later)
    (h : ¬ ∃ source, Mapped reports name source ∧ line < source ∧ source ≤ later)
    (source : UInt32) :
    IsNearest reports name line source ↔ IsNearest reports name later source := by
  have hback : ∀ other, other ≤ later → Mapped reports name other → other ≤ line := by
    intro other hother hmapped
    exact UInt32.not_lt.1 fun hlt => h ⟨other, hmapped, hlt, hother⟩
  constructor
  · rintro ⟨hsource, hmapped, hall⟩
    exact ⟨UInt32.le_trans hsource hle, hmapped, fun other hother hm =>
      hall other (hback other hother hm) hm⟩
  · rintro ⟨hsource, hmapped, hall⟩
    exact ⟨hback source hsource hmapped, hmapped, fun other hother =>
      hall other (UInt32.le_trans hother hle)⟩

end Lookups

/-- **What a look-up finds** in the table of reports. Nothing, exactly if no report on the class
    maps a line at or before the given one. Otherwise it is decided by the nearest such line, by
    the last report on the class that maps it, and by the greatest instruction of this report
    that is in both of its tables and on the line: what is found is the written line of this
    instruction.

    Between two lines the answer changes only if a line after the first and up to the second is
    mapped, and it does not matter in which order rows for different classes are inserted. -/
theorem lookup_ofReports (reports : List (String × LineReport)) (name : String) :
    (∀ line, (ofReports reports).lookup name line = none
      ↔ ¬ ∃ source, source ≤ line ∧ Mapped reports name source)
    ∧ (∀ line dest, (ofReports reports).lookup name line = some dest
      ↔ ∃ source report instruction, IsNearest reports name line source
          ∧ IsLast reports name source report ∧ report.Decides source instruction
          ∧ report.written.get? instruction = some dest)
    ∧ (∀ line later, line ≤ later →
        (ofReports reports).lookup name line ≠ (ofReports reports).lookup name later →
        ∃ source, Mapped reports name source ∧ line < source ∧ source ≤ later)
    ∧ ∀ (table : LineTable) (other : String) (rows rows' : LineRows), name ≠ other →
        (table.insert name rows).insert other rows'
          = (table.insert other rows').insert name rows := by
  refine ⟨fun line => lookup_eq_none_iff, fun line dest => ?_, fun line later hle hdiffer => ?_,
    fun table other rows rows' hne => insert_comm table hne rows rows'⟩
  · rw [lookup_eq_some_iff]
    refine exists_congr fun source => ?_
    rw [get?_rowsOf_ofReports]
    simp only [LineReport.get?_compose]
    constructor
    · rintro ⟨hnearest, report, hlast, instruction, hdecides, hdest⟩
      exact ⟨report, instruction, hnearest, hlast, hdecides, hdest⟩
    · rintro ⟨report, instruction, hnearest, hlast, hdecides, hdest⟩
      exact ⟨hnearest, report, hlast, instruction, hdecides, hdest⟩
  · by_contra hnone
    refine hdiffer (Option.ext fun dest => ?_)
    rw [lookup_eq_some_iff, lookup_eq_some_iff]
    exact exists_congr fun source => and_congr_left fun _ => isNearest_congr hle hnone source

/-- Three reports. The first on `A` has lines one to three for its lines ten and twelve, of which
    two are for ten, the second is on another class, and the third maps line eleven of `A`. -/
def threeReports : List (String × LineReport) :=
  [("A", ⟨.ofList [(0, 10), (1, 10), (2, 12)], .ofList [(0, 1), (1, 2), (2, 3), (5, 4)]⟩),
   ("B", ⟨.ofList [(0, 11)], .ofList [(0, 9)]⟩),
   ("A", ⟨.ofList [(5, 10), (6, 11), (7, 11)], .ofList [(6, 7), (7, 5)]⟩)]

theorem lookup_ofReports_three_reports :
    (¬ ∃ source, source ≤ 9 ∧ Mapped threeReports "A" source)
    ∧ (∃ source report instruction, IsNearest threeReports "A" 10 source
        ∧ IsLast threeReports "A" source report ∧ report.Decides source instruction
        ∧ report.written.get? instruction = some 2)
    ∧ (∃ source, Mapped threeReports "A" source ∧ 10 < source ∧ source ≤ 11)
    ∧ (ofReports threeReports).lookup "A" 11 = some 5
    ∧ (({} : LineTable).insert "A" (.ofList [(1, 2)])).insert "B" (.ofList [(1, 3)])
        = (({} : LineTable).insert "B" (.ofList [(1, 3)])).insert "A" (.ofList [(1, 2)]) := by
  obtain ⟨hnone, hsome, hchange, hcomm⟩ := lookup_ofReports threeReports "A"
  refine ⟨(hnone 9).1 (by decide +kernel), (hsome 10 2).1 (by decide +kernel),
    hchange 10 11 (by decide) (by decide +kernel), by decide +kernel,
    hcomm {} "B" _ _ (by decide)⟩

end LineTable

end Nomenclator
