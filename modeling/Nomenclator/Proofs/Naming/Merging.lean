import Mathlib.Data.List.Induction
import Nomenclator.Proofs.Naming.Catalog

/-! # Merging — repeated declarations are joined, and nothing else happens

    Class rows with one first name become one class, member rows of a class with one
    first name and descriptor become one member.  Both are the same game: an item is
    added at the end, or dropped because its content is there already, or refused
    because its key is there with other content (`Joins`).

    * **Result** — the contents, each once, in the order of their first declarations;
    * **Success** — exactly when contents with one key are the same.

    So the classes of a document are known from its rows alone, and so is whether it
    has any (`Document.lists_of_entries`, `Document.exists_entries_iff`). -/

namespace Nomenclator.Naming

-- ── Declarations that agree ──────────────────────────────────────────────────

theorem firstDifference_eq_none {labels earlier later : List String}
    (hearlier : earlier.length = labels.length) (hlater : later.length = labels.length) :
    firstDifference labels earlier later = none ↔ earlier = later := by
  induction labels generalizing earlier later with
  | nil =>
      rw [List.length_eq_zero_iff.1 hearlier, List.length_eq_zero_iff.1 hlater]
      exact ⟨fun _ => rfl, fun _ => rfl⟩
  | cons label labels ih =>
      match earlier, later, hearlier, hlater with
      | a :: earlier, b :: later, hearlier, hlater =>
          rw [firstDifference]
          by_cases hab : a = b
          · rw [if_pos hab, ih (Nat.succ.inj hearlier) (Nat.succ.inj hlater), hab]
            exact ⟨fun h => congrArg (b :: ·) h, fun h => List.tail_eq_of_cons_eq h⟩
          · rw [if_neg hab]
            exact ⟨fun h => (nomatch h), fun h => absurd (List.head_eq_of_cons_eq h) hab⟩

/-- A repeated declaration is accepted exactly when it gives the same names. -/
theorem checkSame_eq_ok_iff {ns : Namespaces} {kind : SymbolKind} {line : Nat}
    {earlier later : List String} (hearlier : earlier.length = ns.size)
    (hlater : later.length = ns.size) :
    checkSame ns kind line earlier later = .ok () ↔ earlier = later := by
  rw [← firstDifference_eq_none hearlier hlater, checkSame]
  cases firstDifference ns.labels earlier later with
  | none => exact ⟨fun _ => rfl, fun _ => rfl⟩
  | some difference => exact ⟨fun h => (nomatch h), fun h => (nomatch h)⟩

-- ── Joining items under keys ─────────────────────────────────────────────────

section Joining

variable {α γ κ ε : Type}

/-- Contents with one key are the same. -/
def OnePerKey (key : γ → κ) (contents : List γ) : Prop :=
  ∀ a ∈ contents, ∀ b ∈ contents, key a = key b → a = b

theorem onePerKey_concat {key : γ → κ} {contents : List γ} {new : γ} :
    OnePerKey key (contents ++ [new])
      ↔ OnePerKey key contents ∧ ∀ a ∈ contents, key a = key new → a = new := by
  constructor
  · intro h
    refine ⟨fun a ha b hb => ?_, fun a ha => ?_⟩
    · exact h a (List.mem_append_left _ ha) b (List.mem_append_left _ hb)
    · exact h a (List.mem_append_left _ ha) new (List.mem_append_right _ List.mem_cons_self)
  · rintro ⟨hold, hnew⟩ a ha b hb hkey
    rw [List.mem_append, List.mem_singleton] at ha hb
    rcases ha with ha | rfl <;> rcases hb with hb | rfl
    · exact hold a ha b hb hkey
    · exact hnew a ha hkey
    · exact (hnew b hb hkey.symm).symm
    · rfl

theorem onePerKey_of_nodup {key : γ → κ} {contents : List γ} (h : (contents.map key).Nodup) :
    OnePerKey key contents :=
  fun _ ha _ hb => List.inj_on_of_nodup_map h ha hb

variable [BEq γ] [LawfulBEq γ]

/-- One more item is kept unless it is there already. -/
theorem eraseDups_concat (contents : List γ) (new : γ) :
    (contents ++ [new]).eraseDups
      = if new ∈ contents then contents.eraseDups else contents.eraseDups ++ [new] := by
  rw [List.eraseDups_append]
  by_cases hmem : new ∈ contents
  · rw [if_pos hmem]
    simp [List.removeAll, hmem]
  · rw [if_neg hmem]
    simp [List.removeAll, hmem, List.eraseDups_cons]

/-- Where nothing is repeated, everything is kept. -/
theorem eraseDups_of_nodup {contents : List γ} (h : contents.Nodup) :
    contents.eraseDups = contents := by
  induction contents using List.reverseRecOn with
  | nil => rfl
  | append_singleton past new ih =>
      obtain ⟨hpast, -, hnew⟩ := List.nodup_append.1 h
      have hmem : new ∉ past := fun hmem => hnew new hmem new List.mem_cons_self rfl
      rw [eraseDups_concat, if_neg hmem, ih hpast]

/-- What adding an item to joined ones has to do, for contents that fit: it succeeds unless
    there is other content under the key, and adds what is not there yet. -/
structure Joins (fits : γ → Prop) (key : γ → κ) (content : α → γ)
    (step : List α → α → Except ε (List α)) : Prop where
  accepts : ∀ {merged item}, (∀ m ∈ merged, fits (content m)) → fits (content item) →
    OnePerKey key (merged.map content) →
      ((∃ out, step merged item = .ok out)
        ↔ ∀ m ∈ merged, key (content m) = key (content item) → content m = content item)
  adds : ∀ {merged item out}, (∀ m ∈ merged, fits (content m)) → fits (content item) →
    step merged item = .ok out →
      out.map content = if content item ∈ merged.map content then merged.map content
        else merged.map content ++ [content item]

variable {fits : γ → Prop} {key : γ → κ} {content : α → γ}
  {step : List α → α → Except ε (List α)}

/-- **Joined contents.** Each content once, in the order of the first items that have it. -/
theorem Joins.map_content (h : Joins fits key content step) {items out : List α}
    (hfits : ∀ item ∈ items, fits (content item)) (hrun : items.foldlM step [] = .ok out) :
    out.map content = (items.map content).eraseDups := by
  refine Outcome.foldlM_history
    (fun past merged => (∀ item ∈ past, fits (content item)) →
      merged.map content = (past.map content).eraseDups)
    (fun past item merged out hi hs hpast => ?_) (fun _ => rfl) hrun hfits
  have hmerged := hi fun m hm => hpast m (List.mem_append_left _ hm)
  have hold : ∀ m ∈ merged, fits (content m) := by
    intro m hm
    have hmem := List.mem_map_of_mem (f := content) hm
    rw [hmerged, List.mem_eraseDups] at hmem
    obtain ⟨m', hm', heq⟩ := List.mem_map.1 hmem
    exact heq ▸ hpast m' (List.mem_append_left _ hm')
  rw [h.adds hold (hpast item (List.mem_append_right _ List.mem_cons_self)) hs, hmerged,
    List.map_append, List.map_singleton, eraseDups_concat]
  simp only [List.mem_eraseDups]

/-- **Joining succeeds** exactly when items with one key have one content. -/
theorem Joins.exists_foldlM_iff (h : Joins fits key content step) {items : List α}
    (hfits : ∀ item ∈ items, fits (content item)) :
    (∃ out, items.foldlM step [] = .ok out) ↔ OnePerKey key (items.map content) := by
  induction items using List.reverseRecOn with
  | nil => exact ⟨fun _ a ha => (nomatch ha), fun _ => ⟨[], rfl⟩⟩
  | append_singleton past item ih =>
      have hpast : ∀ m ∈ past, fits (content m) := fun m hm => hfits m (List.mem_append_left _ hm)
      have hitem := hfits item (List.mem_append_right _ List.mem_cons_self)
      rw [List.map_append, List.map_singleton, onePerKey_concat, ← ih hpast, List.foldlM_append]
      -- what has been joined so far has the contents of the past items
      have hstep : ∀ {merged}, past.foldlM step [] = .ok merged →
          ((∃ out, step merged item = .ok out)
            ↔ ∀ a ∈ past.map content, key a = key (content item) → a = content item) := by
        intro merged hmerged
        have hsame : ∀ a, a ∈ merged.map content ↔ a ∈ past.map content := by
          intro a
          rw [h.map_content hpast hmerged, List.mem_eraseDups]
        have hold : ∀ m ∈ merged, fits (content m) := by
          intro m hm
          obtain ⟨m', hm', heq⟩ := List.mem_map.1 ((hsame _).1 (List.mem_map_of_mem hm))
          exact heq ▸ hpast m' hm'
        have hone : OnePerKey key (merged.map content) := fun a ha b hb =>
          (ih hpast).1 ⟨merged, hmerged⟩ a ((hsame a).1 ha) b ((hsame b).1 hb)
        rw [h.accepts hold hitem hone, ← List.forall_mem_map (f := content)
          (P := fun a => key a = key (content item) → a = content item)]
        exact forall_congr' fun a => imp_congr_left (hsame a)
      constructor
      · rintro ⟨out, hout⟩
        obtain ⟨merged, hmerged, hout⟩ := Outcome.bind_eq_ok.1 hout
        rw [List.foldlM_cons] at hout
        obtain ⟨next, hnext, -⟩ := Outcome.bind_eq_ok.1 hout
        exact ⟨⟨merged, hmerged⟩, (hstep hmerged).1 ⟨next, hnext⟩⟩
      · rintro ⟨⟨merged, hmerged⟩, hagree⟩
        obtain ⟨next, hnext⟩ := (hstep hmerged).2 hagree
        refine ⟨next, Outcome.bind_eq_ok.2 ⟨merged, hmerged, ?_⟩⟩
        rw [List.foldlM_cons, hnext]
        rfl

end Joining

-- ── Classes ──────────────────────────────────────────────────────────────────

section Classes

variable {ns : Namespaces}

/-- The first of some names. -/
def firstOf (names : List String) : String := names.headD ""

theorem exists_mergeClass {incoming : ClassRow} {merged : List ClassRow}
    (h : ∀ c ∈ merged, c.firstName = incoming.firstName →
      checkSame ns .ofClass incoming.line c.names incoming.names = .ok ()) :
    ∃ out, mergeClass ns incoming merged = .ok out := by
  induction merged with
  | nil => exact ⟨[incoming], rfl⟩
  | cons c later ih =>
      rw [mergeClass]
      by_cases hname : c.firstName = incoming.firstName
      · rw [if_pos hname, h c List.mem_cons_self hname]
        exact ⟨_, rfl⟩
      · obtain ⟨out, hout⟩ := ih fun d hd => h d (List.mem_cons_of_mem _ hd)
        rw [if_neg hname, hout]
        exact ⟨_, rfl⟩

/-- Adding class rows joins their names under the first of them. -/
theorem joins_mergeClass (ns : Namespaces) :
    Joins (fun names => names.length = ns.size) firstOf ClassRow.names
      (fun merged row => mergeClass ns row merged) where
  accepts := by
    intro merged incoming hmerged hincoming hone
    constructor
    · rintro ⟨out, hout⟩ m hm hkey
      rcases mergeClass_eq_ok hout with ⟨hnew, -⟩ | ⟨before, c, after, rfl, hc, hsame, -⟩
      · exact absurd (List.mem_map.2 ⟨m, hm, hkey⟩) hnew
      · have hmem : c ∈ before ++ c :: after := List.mem_append_right _ List.mem_cons_self
        rw [← (checkSame_eq_ok_iff (hmerged c hmem) hincoming).1 hsame]
        exact hone _ (List.mem_map_of_mem hm) _ (List.mem_map_of_mem hmem) (hkey.trans hc.symm)
    · intro hagree
      refine exists_mergeClass fun c hc hname => ?_
      exact (checkSame_eq_ok_iff (hmerged c hc) hincoming).2 (hagree c hc hname)
  adds := by
    intro merged incoming out hmerged hincoming hout
    rcases mergeClass_eq_ok hout with ⟨hnew, rfl⟩ | ⟨before, c, after, rfl, hc, hsame, rfl⟩
    · rw [if_neg, List.map_append, List.map_singleton]
      intro hmem
      obtain ⟨m, hm, hnames⟩ := List.mem_map.1 hmem
      exact hnew (List.mem_map.2 ⟨m, hm, congrArg firstOf hnames⟩)
    · have hmem : c ∈ before ++ c :: after := List.mem_append_right _ List.mem_cons_self
      rw [if_pos, List.map_append, List.map_append]
      · rfl
      · rw [← (checkSame_eq_ok_iff (hmerged c hmem) hincoming).1 hsame]
        exact List.mem_map_of_mem hmem

/-- The member rows of a kind that class rows with a first name hold, in order. -/
def membersUnder (kind : MemberKind) (name : String) (rows : List ClassRow) : List MemberRow :=
  (rows.filter fun c => c.firstName = name).flatMap (·.members kind)

theorem membersUnder_concat_of_ne (kind : MemberKind) {name : String} (rows : List ClassRow)
    {c : ClassRow} (h : c.firstName ≠ name) :
    membersUnder kind name (rows ++ [c]) = membersUnder kind name rows := by
  rw [membersUnder, List.filter_append, List.filter_cons_of_neg (by simpa using h),
    List.filter_nil, List.append_nil]
  rfl

theorem membersUnder_concat_self (kind : MemberKind) (rows : List ClassRow) (c : ClassRow) :
    membersUnder kind c.firstName (rows ++ [c])
      = membersUnder kind c.firstName rows ++ c.members kind := by
  rw [membersUnder, List.filter_append, List.filter_cons_of_pos (by exact decide_eq_true rfl),
    List.filter_nil, List.flatMap_append, List.flatMap_singleton]
  rfl

theorem membersUnder_eq_nil (kind : MemberKind) {name : String} {rows : List ClassRow}
    (h : name ∉ rows.map ClassRow.firstName) : membersUnder kind name rows = [] := by
  rw [membersUnder, List.filter_eq_nil_iff.2, List.flatMap_nil]
  intro c hc heq
  exact h (List.mem_map.2 ⟨c, hc, of_decide_eq_true heq⟩)

/-- Joined classes hold what all rows with their first name held. -/
structure Gathers (rows merged : List ClassRow) : Prop where
  named : ∀ c ∈ rows, c.firstName ∈ merged.map ClassRow.firstName
  members : ∀ d ∈ merged, ∀ kind, d.members kind = membersUnder kind d.firstName rows

theorem Gathers.mergeClass {rows merged out : List ClassRow} {incoming : ClassRow}
    (h : Gathers rows merged) (hdistinct : (merged.map ClassRow.firstName).Nodup)
    (hout : mergeClass ns incoming merged = .ok out) : Gathers (rows ++ [incoming]) out := by
  rcases mergeClass_eq_ok hout with ⟨hnew, rfl⟩ | ⟨before, c, after, rfl, hc, -, rfl⟩
  · refine ⟨fun d hd => ?_, fun d hd kind => ?_⟩
    · rw [List.map_append]
      rcases List.mem_append.1 hd with hd | hd
      · exact List.mem_append_left _ (h.named d hd)
      · obtain rfl := List.mem_singleton.1 hd
        exact List.mem_append_right _ List.mem_cons_self
    · rcases List.mem_append.1 hd with hd | hd
      · have hne : incoming.firstName ≠ d.firstName := fun heq =>
          hnew (List.mem_map.2 ⟨d, hd, heq.symm⟩)
        rw [membersUnder_concat_of_ne kind rows hne]
        exact h.members d hd kind
      · -- a first name that is new to the joined classes is new to the rows
        obtain rfl := List.mem_singleton.1 hd
        have hnone : d.firstName ∉ rows.map ClassRow.firstName := by
          intro hmem
          obtain ⟨c, hc, heq⟩ := List.mem_map.1 hmem
          exact hnew (heq ▸ h.named c hc)
        rw [membersUnder_concat_self, membersUnder_eq_nil kind hnone, List.nil_append]
  · have hmem : c ∈ before ++ c :: after := List.mem_append_right _ List.mem_cons_self
    -- only one of the joined classes has the first name of the row
    have hother : ∀ d, d ∈ before ∨ d ∈ after → incoming.firstName ≠ d.firstName := by
      intro d hd heq
      rw [List.map_append, List.map_cons, List.nodup_middle, List.nodup_cons,
        ← List.map_append] at hdistinct
      exact hdistinct.1 (List.mem_map.2 ⟨d, List.mem_append.2 hd, heq.symm.trans hc.symm⟩)
    refine ⟨fun d hd => ?_, fun d hd kind => ?_⟩
    · rw [firstNames_extend]
      rcases List.mem_append.1 hd with hd | hd
      · exact h.named d hd
      · rw [List.mem_singleton.1 hd, ← hc]
        exact List.mem_map_of_mem hmem
    · rcases List.mem_append.1 hd with hd | hd
      · rw [membersUnder_concat_of_ne kind rows (hother d (.inl hd))]
        exact h.members d (List.mem_append_left _ hd) kind
      · rcases List.mem_cons.1 hd with rfl | hd
        · show _ = membersUnder kind c.firstName _
          rw [ClassRow.members_extend, h.members c hmem kind, hc, membersUnder_concat_self]
        · rw [membersUnder_concat_of_ne kind rows (hother d (.inr hd))]
          exact h.members d (List.mem_append_right _ (List.mem_cons_of_mem _ hd)) kind

theorem mergeClasses_gathers {count : Nat} {test : MemberKind → MemberRow → Prop}
    {rows merged : List ClassRow} (hrows : ∀ c ∈ rows, c.Good count test)
    (h : mergeClasses ns rows = .ok merged) : Gathers rows merged := by
  have hstart : Merged count test [] := ⟨List.nodup_nil, (fun _ hc => nomatch hc)⟩
  have hrun := Outcome.foldlM_history
    (fun past merged => (∀ c ∈ past, c.Good count test) →
      Merged count test merged ∧ Gathers past merged)
    (fun past c merged out hi hs hpast => ?_)
    (fun _ => ⟨hstart, (fun _ hc => nomatch hc), (fun _ hd => nomatch hd)⟩) h
  · exact (hrun hrows).2
  · obtain ⟨hmerged, hgathers⟩ := hi fun d hd => hpast d (List.mem_append_left _ hd)
    exact ⟨hmerged.mergeClass (hpast c (List.mem_append_right _ List.mem_cons_self)) hs,
      hgathers.mergeClass hmerged.distinct hs⟩

end Classes

-- ── Members ──────────────────────────────────────────────────────────────────

section Members

variable {ns : Namespaces} {kind : MemberKind}

/-- What a member row says of the member: its descriptor, then its names. -/
def MemberRow.cells (m : MemberRow) : List String := m.descriptor :: m.names

/-- The cells that tell the members of one kind in a class apart. -/
def keyOf (cells : List String) : String × String := (cells.headD "", firstOf cells.tail)

theorem MemberRow.key_eq_iff {m m' : MemberRow} :
    m.key = m'.key ↔ keyOf m.cells = keyOf m'.cells := by
  constructor
  · intro h
    obtain ⟨hname, hdesc⟩ := MemberKey.mk.inj h
    exact Prod.ext hdesc hname
  · intro h
    obtain ⟨hdesc, hname⟩ := Prod.mk.inj h
    show MemberKey.mk _ _ = MemberKey.mk _ _
    exact congrArg₂ MemberKey.mk hname hdesc

theorem exists_mergeMember {incoming : MemberRow} {merged : List MemberRow}
    (h : ∀ m ∈ merged, m.key = incoming.key →
      checkSame ns (.ofMember kind) incoming.line m.names incoming.names = .ok ()) :
    ∃ out, mergeMember ns kind incoming merged = .ok out := by
  induction merged with
  | nil => exact ⟨[incoming], rfl⟩
  | cons m later ih =>
      rw [mergeMember]
      by_cases hkey : m.firstName = incoming.firstName ∧ m.descriptor = incoming.descriptor
      · rw [if_pos hkey, h m List.mem_cons_self (congrArg₂ MemberKey.mk hkey.1 hkey.2)]
        exact ⟨_, rfl⟩
      · obtain ⟨out, hout⟩ := ih fun d hd => h d (List.mem_cons_of_mem _ hd)
        rw [if_neg hkey, hout]
        exact ⟨_, rfl⟩

/-- Rows with one key that agree say the same. -/
theorem cells_eq_of_checkSame {m incoming : MemberRow} (hm : m.cells.length = ns.size + 1)
    (hincoming : incoming.cells.length = ns.size + 1) (hkey : m.key = incoming.key) :
    checkSame ns (.ofMember kind) incoming.line m.names incoming.names = .ok ()
      ↔ m.cells = incoming.cells := by
  rw [checkSame_eq_ok_iff (Nat.succ.inj hm) (Nat.succ.inj hincoming), MemberRow.cells,
    MemberRow.cells, (MemberKey.mk.inj hkey).2]
  exact ⟨fun h => congrArg _ h, List.tail_eq_of_cons_eq⟩

/-- Adding member rows joins their cells under descriptor and first name. -/
theorem joins_mergeMember (ns : Namespaces) (kind : MemberKind) :
    Joins (fun cells => cells.length = ns.size + 1) keyOf MemberRow.cells
      (fun merged row => mergeMember ns kind row merged) where
  accepts := by
    intro merged incoming hmerged hincoming hone
    constructor
    · rintro ⟨out, hout⟩ m hm hkey
      rcases mergeMember_eq_ok hout with ⟨hnew, -⟩ | ⟨⟨c, hc, hcKey, hsame⟩, -⟩
      · exact absurd (List.mem_map.2 ⟨m, hm, MemberRow.key_eq_iff.2 hkey⟩) hnew
      · rw [← (cells_eq_of_checkSame (hmerged c hc) hincoming hcKey).1 hsame]
        exact hone _ (List.mem_map_of_mem hm) _ (List.mem_map_of_mem hc)
          (hkey.trans (MemberRow.key_eq_iff.1 hcKey.symm))
    · intro hagree
      refine exists_mergeMember fun m hm hkey => ?_
      exact (cells_eq_of_checkSame (hmerged m hm) hincoming hkey).2
        (hagree m hm (MemberRow.key_eq_iff.1 hkey))
  adds := by
    intro merged incoming out hmerged hincoming hout
    rcases mergeMember_eq_ok hout with ⟨hnew, rfl⟩ | ⟨⟨c, hc, hkey, hsame⟩, rfl⟩
    · rw [if_neg, List.map_append, List.map_singleton]
      intro hmem
      obtain ⟨m, hm, hcells⟩ := List.mem_map.1 hmem
      exact hnew (List.mem_map.2 ⟨m, hm, MemberRow.key_eq_iff.2 (congrArg keyOf hcells)⟩)
    · rw [if_pos]
      rw [← (cells_eq_of_checkSame (hmerged c hc) hincoming hkey).1 hsame]
      exact List.mem_map_of_mem hc

/-- The members of a class are joined exactly when those with one key say the same. -/
theorem exists_mergeWithin_iff {c : ClassRow}
    (hfits : ∀ kind, ∀ m ∈ c.members kind, m.cells.length = ns.size + 1) :
    (∃ out, mergeWithin ns c = .ok out)
      ↔ ∀ kind, OnePerKey keyOf ((c.members kind).map MemberRow.cells) := by
  have hkind : ∀ kind, (∃ out, mergeMembers ns kind (c.members kind) = .ok out)
      ↔ OnePerKey keyOf ((c.members kind).map MemberRow.cells) := fun kind =>
    (joins_mergeMember ns kind).exists_foldlM_iff (hfits kind)
  constructor
  · rintro ⟨out, hout⟩ kind
    obtain ⟨fields, hfields, hout⟩ := Outcome.bind_eq_ok.1 hout
    obtain ⟨methods, hmethods, -⟩ := Outcome.bind_eq_ok.1 hout
    cases kind with
    | field => exact (hkind .field).1 ⟨fields, hfields⟩
    | method => exact (hkind .method).1 ⟨methods, hmethods⟩
  · intro hone
    obtain ⟨fields, hfields⟩ := (hkind .field).2 (hone .field)
    obtain ⟨methods, hmethods⟩ := (hkind .method).2 (hone .method)
    refine ⟨{ c with fields, methods }, ?_⟩
    exact Outcome.bind_eq_ok.2 ⟨fields, hfields, Outcome.bind_eq_ok.2 ⟨methods, hmethods, rfl⟩⟩

theorem mergeWithin_cells {c out : ClassRow}
    (hfits : ∀ kind, ∀ m ∈ c.members kind, m.cells.length = ns.size + 1)
    (h : mergeWithin ns c = .ok out) (kind : MemberKind) :
    (out.members kind).map MemberRow.cells = ((c.members kind).map MemberRow.cells).eraseDups := by
  obtain ⟨fields, hfields, h⟩ := Outcome.bind_eq_ok.1 h
  obtain ⟨methods, hmethods, h⟩ := Outcome.bind_eq_ok.1 h
  cases h
  cases kind with
  | field => exact (joins_mergeMember ns .field).map_content (hfits .field) hfields
  | method => exact (joins_mergeMember ns .method).map_content (hfits .method) hmethods

end Members

-- ── Rows ─────────────────────────────────────────────────────────────────────

/-- What the member rows of a kind say. -/
def ClassRow.contents (c : ClassRow) (kind : MemberKind) : List (List String) :=
  (c.members kind).map MemberRow.cells

/-- Classes list what rows declare: their names are those of the rows, each once; and the
    members of a class are those of all rows with its first name, each once. Classes are seen
    through their names and through what their members say. -/
structure Lists {δ : Type} (namesOf : δ → List String)
    (contents : δ → MemberKind → List (List String)) (rows : List ClassRow) (classes : List δ) :
    Prop where
  names : classes.map namesOf = (rows.map ClassRow.names).eraseDups
  members : ∀ d ∈ classes, ∀ kind, contents d kind
    = ((membersUnder kind (firstOf (namesOf d)) rows).map MemberRow.cells).eraseDups

section Lists

variable {δ : Type} {namesOf : δ → List String} {contents : δ → MemberKind → List (List String)}
  {rows : List ClassRow} {classes : List δ}

/-- Everything that a row declares is listed. -/
theorem Lists.keeps (h : Lists namesOf contents rows classes) {c : ClassRow} (hc : c ∈ rows) :
    ∃ d ∈ classes, namesOf d = c.names
      ∧ ∀ kind, ∀ cells ∈ c.contents kind, cells ∈ contents d kind := by
  have hmem : c.names ∈ classes.map namesOf := by
    rw [h.names, List.mem_eraseDups]
    exact List.mem_map_of_mem hc
  obtain ⟨d, hd, hdc⟩ := List.mem_map.1 hmem
  refine ⟨d, hd, hdc, fun kind cells hcells => ?_⟩
  obtain ⟨m, hm, rfl⟩ := List.mem_map.1 hcells
  rw [h.members d hd kind, List.mem_eraseDups]
  refine List.mem_map_of_mem (List.mem_flatMap.2 ⟨c, List.mem_filter.2 ⟨hc, ?_⟩, hm⟩)
  exact decide_eq_true (congrArg firstOf hdc.symm)

/-- Nothing else is listed. -/
theorem Lists.source (h : Lists namesOf contents rows classes) {d : δ} (hd : d ∈ classes)
    {kind : MemberKind} {cells : List String} (hcells : cells ∈ contents d kind) :
    ∃ m ∈ membersUnder kind (firstOf (namesOf d)) rows, m.cells = cells := by
  rw [h.members d hd kind, List.mem_eraseDups] at hcells
  exact List.mem_map.1 hcells

end Lists

section Rows

variable {ns : Namespaces} {test : MemberKind → MemberRow → Prop} {rows : List ClassRow}

theorem ClassRow.Good.length_cells {count : Nat} {c : ClassRow} (h : c.Good count test)
    (kind : MemberKind) : ∀ m ∈ c.members kind, m.cells.length = count + 1 := by
  intro m hm
  exact congrArg Nat.succ ((h.members kind m hm).1.names).1

/-- **Joined rows** list what the rows declare. -/
theorem mergeRows_lists (hrows : ∀ c ∈ rows, c.Good ns.size test) {out : List ClassRow}
    (h : mergeRows ns rows = .ok out) : Lists ClassRow.names ClassRow.contents rows out := by
  obtain ⟨merged, hmerged, h⟩ := Outcome.bind_eq_ok.1 h
  have hgood := (mergeClasses_eq_ok hrows hmerged).good
  have hwithin := Outcome.mapM_eq_ok h
  constructor
  · rw [← (joins_mergeClass ns).map_content (fun c hc => (hrows c hc).names.1) hmerged]
    exact (Outcome.map_eq_map (hwithin.imp fun c d hcd => (mergeWithin_eq_ok hcd).1.symm)).symm
  · intro d hd kind
    obtain ⟨c, hc, hcd⟩ := Outcome.exists_source hwithin hd
    rw [ClassRow.contents, mergeWithin_cells (hgood c hc).length_cells hcd kind,
      (mergeWithin_eq_ok hcd).1, (mergeClasses_gathers hrows hmerged).members c hc kind]
    rfl

/-- **Joining succeeds** exactly when rows of one class have the same names, and rows of one
    member say the same. -/
theorem exists_mergeRows_iff (hrows : ∀ c ∈ rows, c.Good ns.size test) :
    (∃ out, mergeRows ns rows = .ok out)
      ↔ OnePerKey firstOf (rows.map ClassRow.names)
        ∧ ∀ kind name, OnePerKey keyOf ((membersUnder kind name rows).map MemberRow.cells) := by
  have hclasses := (joins_mergeClass ns).exists_foldlM_iff fun c hc => (hrows c hc).names.1
  -- the members of the joined classes are those under the first names of the rows
  have hmembers : ∀ {merged}, mergeClasses ns rows = .ok merged →
      ((∃ out, merged.mapM (mergeWithin ns) = .ok out)
        ↔ ∀ kind name, OnePerKey keyOf ((membersUnder kind name rows).map MemberRow.cells)) := by
    intro merged hmerged
    have hgood := (mergeClasses_eq_ok hrows hmerged).good
    have hgathers := mergeClasses_gathers hrows hmerged
    rw [Outcome.exists_mapM_iff]
    constructor
    · intro hall kind name
      by_cases hname : name ∈ rows.map ClassRow.firstName
      · obtain ⟨c, hc, rfl⟩ := List.mem_map.1 hname
        obtain ⟨d, hd, hdc⟩ := List.mem_map.1 (hgathers.named c hc)
        rw [← hdc, ← hgathers.members d hd kind]
        exact (exists_mergeWithin_iff (hgood d hd).length_cells).1 (hall d hd) kind
      · rw [membersUnder_eq_nil kind hname]
        exact fun a ha => nomatch ha
    · intro hone d hd
      refine (exists_mergeWithin_iff (hgood d hd).length_cells).2 fun kind => ?_
      rw [hgathers.members d hd kind]
      exact hone kind d.firstName
  constructor
  · rintro ⟨out, hout⟩
    obtain ⟨merged, hmerged, hout⟩ := Outcome.bind_eq_ok.1 hout
    exact ⟨hclasses.1 ⟨merged, hmerged⟩, (hmembers hmerged).1 ⟨out, hout⟩⟩
  · rintro ⟨hone, hall⟩
    obtain ⟨merged, hmerged⟩ := hclasses.2 hone
    obtain ⟨out, hout⟩ := (hmembers hmerged).2 hall
    exact ⟨out, Outcome.bind_eq_ok.2 ⟨merged, hmerged, hout⟩⟩

end Rows

-- ── Documents ────────────────────────────────────────────────────────────────

section Documents

variable {test : MemberKind → MemberRow → Prop} {doc : Document}

/-- What a member says in the first namespace: its descriptor, then all its names. -/
def Member.cells (m : Member) : List String := m.descriptor 0 :: m.names

theorem Member.Renders.cells_eq {catalog : Catalog} {m : Member} {row : MemberRow}
    (h : m.Renders catalog row) : m.cells = row.cells := by
  rw [Member.cells, MemberRow.cells, h.literal, h.names]

/-- What the members of a kind say. -/
def ClassEntry.contents (c : ClassEntry) (kind : MemberKind) : List (List String) :=
  (c.members kind).map Member.cells

/-- **The classes of a document** list what its rows declare. -/
theorem Document.lists_of_entries {catalog : Catalog}
    (hrows : ∀ c ∈ doc.classes, c.Good catalog.namespaces.size test)
    (hlabels : 0 < catalog.namespaces.size)
    (hentries : doc.entries = .ok catalog.classes) (hns : catalog.namespaces = doc.namespaces) :
    Lists ClassEntry.names ClassEntry.contents doc.classes catalog.classes := by
  obtain ⟨rows, hmerge, hpairs⟩ := entries_described hentries hns
  have hlists := mergeRows_lists hrows hmerge
  refine ⟨?_, fun c hc kind => ?_⟩
  · rw [← hlists.names]
    exact (Outcome.map_eq_map (hpairs.imp fun r c hrc => hrc.1.symm)).symm
  · obtain ⟨r, hr, hrc, hdescribed⟩ := Outcome.exists_source hpairs hc
    rw [hrc, ← hlists.members r hr kind]
    exact (Outcome.map_eq_map ((hdescribed kind).imp fun row m hm =>
      (Member.renders_of_describe hlabels hm).1.cells_eq.symm)).symm

/-- A descriptor is written exactly when it is complete. -/
theorem exists_describe_iff {tables : List (SortedMap String String)} (hne : tables ≠ [])
    (row : MemberRow) :
    (∃ m, describe tables row = .ok m) ↔ Descriptor.Complete row.descriptor := by
  have htable : ∀ table, (∃ d, renameDescriptor table row.descriptor = .ok d)
      ↔ Descriptor.Complete row.descriptor := by
    intro table
    rw [← Descriptor.exists_renameClasses_iff table.get?]
    exact exists_congr fun d => Outcome.mapError_eq_ok
  constructor
  · rintro ⟨m, hm⟩
    obtain ⟨descriptors, hdescriptors, -⟩ := Outcome.map_eq_ok.1 hm
    obtain ⟨table, htable'⟩ := List.exists_mem_of_ne_nil _ hne
    exact (htable table).1 (Outcome.exists_mapM_iff.1 ⟨descriptors, hdescriptors⟩ table htable')
  · intro hcomplete
    obtain ⟨descriptors, hdescriptors⟩ :=
      Outcome.exists_mapM_iff.2 fun table (_ : table ∈ tables) => (htable table).2 hcomplete
    exact ⟨_, Outcome.map_eq_ok.2 ⟨descriptors, hdescriptors, rfl⟩⟩

theorem exists_describeClass_iff {tables : List (SortedMap String String)} (hne : tables ≠ [])
    (row : ClassRow) :
    (∃ c, describeClass tables row = .ok c)
      ↔ ∀ kind, ∀ m ∈ row.members kind, Descriptor.Complete m.descriptor := by
  have hkind : ∀ kind, (∃ out, (row.members kind).mapM (describe tables) = .ok out)
      ↔ ∀ m ∈ row.members kind, Descriptor.Complete m.descriptor := by
    intro kind
    rw [Outcome.exists_mapM_iff]
    exact forall₂_congr fun m _ => exists_describe_iff hne m
  constructor
  · rintro ⟨c, hc⟩ kind
    obtain ⟨fields, hfields, hc⟩ := Outcome.bind_eq_ok.1 hc
    obtain ⟨methods, hmethods, -⟩ := Outcome.bind_eq_ok.1 hc
    cases kind with
    | field => exact (hkind .field).1 ⟨fields, hfields⟩
    | method => exact (hkind .method).1 ⟨methods, hmethods⟩
  · intro hcomplete
    obtain ⟨fields, hfields⟩ := (hkind .field).2 (hcomplete .field)
    obtain ⟨methods, hmethods⟩ := (hkind .method).2 (hcomplete .method)
    refine ⟨{ names := row.names, fields, methods }, ?_⟩
    exact Outcome.bind_eq_ok.2 ⟨fields, hfields, Outcome.bind_eq_ok.2 ⟨methods, hmethods, rfl⟩⟩

/-- **A document has classes** exactly when rows of one class have the same names, rows of one
    member say the same, and every descriptor is complete. -/
theorem Document.exists_entries_iff
    (hrows : ∀ c ∈ doc.classes, c.Good doc.namespaces.size test)
    (hlabels : 0 < doc.namespaces.size) :
    (∃ classes, doc.entries = .ok classes)
      ↔ (OnePerKey firstOf (doc.classes.map ClassRow.names)
          ∧ ∀ kind name, OnePerKey keyOf ((membersUnder kind name doc.classes).map MemberRow.cells))
        ∧ ∀ kind name, ∀ m ∈ membersUnder kind name doc.classes,
            Descriptor.Complete m.descriptor := by
  have htables : ∀ rows, (List.range doc.namespaces.size).map (nameTable rows) ≠ [] := by
    intro rows hnil
    rw [List.map_eq_nil_iff, List.range_eq_nil] at hnil
    omega
  -- the descriptors of the joined rows are those of the rows
  have hdescribe : ∀ {rows}, mergeRows doc.namespaces doc.classes = .ok rows →
      ((∃ classes, rows.mapM (describeClass ((List.range doc.namespaces.size).map (nameTable rows)))
          = .ok classes)
        ↔ ∀ kind name, ∀ m ∈ membersUnder kind name doc.classes,
            Descriptor.Complete m.descriptor) := by
    intro rows hmerge
    rw [Outcome.exists_mapM_iff]
    constructor
    · intro hall kind name m hm
      obtain ⟨c, hc, hm⟩ := List.mem_flatMap.1 hm
      obtain ⟨d, hd, -, hkeeps⟩ := (mergeRows_lists hrows hmerge).keeps (List.mem_filter.1 hc).1
      obtain ⟨m', hm', heq⟩ := List.mem_map.1 (hkeeps kind m.cells (List.mem_map_of_mem hm))
      rw [← List.head_eq_of_cons_eq heq]
      exact (exists_describeClass_iff (htables rows) d).1 (hall d hd) kind m' hm'
    · intro hall d hd
      refine (exists_describeClass_iff (htables rows) d).2 fun kind m hm => ?_
      obtain ⟨m', hm', heq⟩ := (mergeRows_lists hrows hmerge).source hd (List.mem_map_of_mem hm)
      rw [← List.head_eq_of_cons_eq heq]
      exact hall kind _ m' hm'
  rw [← exists_mergeRows_iff hrows]
  constructor
  · rintro ⟨classes, hclasses⟩
    obtain ⟨rows, hmerge, hclasses⟩ := Outcome.bind_eq_ok.1 hclasses
    exact ⟨⟨rows, hmerge⟩, (hdescribe hmerge).1 ⟨classes, hclasses⟩⟩
  · rintro ⟨⟨rows, hmerge⟩, hcomplete⟩
    obtain ⟨classes, hclasses⟩ := (hdescribe hmerge).2 hcomplete
    exact ⟨classes, Outcome.bind_eq_ok.2 ⟨rows, hmerge, hclasses⟩⟩

end Documents

end Nomenclator.Naming
