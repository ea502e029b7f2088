import Nomenclator.Proofs.Access.Agreement
import Nomenclator.Proofs.Access.Merge

/-! # Laws of transfer — merging on either side, and the way back

    A transfer moves every request to the image of its subject, and succeeds where
    no image is missing and none is given two visibilities (`transfer_meaning`).
    Two laws follow:

    * **Merging** — a conflict between two sets can show before the transfer, where
      they share a subject, or only after it, where two subjects share an image.
      Subjects that are the same have the same image, so the second case covers the
      first, and it does not matter on which side the sets are merged;
    * **The way back** — where no two symbols share their identity, neither here nor
      there, both tables hold the same pairs read in opposite directions
      (`SameSymbol`), and what was carried over can be carried back. -/

namespace Nomenclator.Access

open Naming (Catalog ClassEntry Member DistinctIdentities)

-- ── Merging before and after ─────────────────────────────────────────────────

section Merging

variable {catalog : Catalog} {source dest : Nat}

/-- Fewer overrides can be transferred as well. -/
theorem Transferable.mono {o whole : Overrides} (h : Transferable catalog source dest whole)
    (hless : ∀ s visibility, o.get? s = some visibility → whole.get? s = some visibility) :
    Transferable catalog source dest o where
  classes name visibility hget := h.classes name visibility (hless _ _ hget)
  members kind m visibility hget := h.members kind m visibility (hless _ _ hget)
  agree s s' target v v' hs hs' := h.agree s s' target v v' (hless _ _ hs) (hless _ _ hs')

/-- Overrides stay as they are in their own namespace. -/
theorem transfer_of_label_eq {o : Overrides} {label : String} (h : o.label = label) :
    transfer catalog label o = .ok { overrides := o, log := [] } :=
  if_pos h

variable {label : String} {a b ab : Overrides}

/-- A set that was merged and then transferred is the merger of the transferred parts. -/
theorem merge_of_transfer (hne : a.label ≠ label) (hab : Overrides.IsUnion a b ab)
    {t : Transferred} (ht : transfer catalog label ab = .ok t) :
    ∃ ta tb, transfer catalog label a = .ok ta ∧ transfer catalog label b = .ok tb
      ∧ Overrides.IsUnion ta.overrides tb.overrides t.overrides := by
  have hneab : ab.label ≠ label := fun h => hne (hab.left.symm.trans h)
  have hneb : b.label ≠ label := fun h => hneab (hab.right.trans h)
  obtain ⟨source, dest, hsource, hdest⟩ :=
    resolve_of_transfer hneab fun e herr => nomatch ht.symm.trans herr
  obtain ⟨hable, hlabel, hget⟩ := transfer_eq_ok hneab hsource hdest ht
  have hsourcea : catalog.resolve a.label = .ok source := hab.left ▸ hsource
  have hsourceb : catalog.resolve b.label = .ok source := hab.right ▸ hsource
  obtain ⟨ta, hta⟩ := exists_transfer hne hsourcea hdest
    (hable.mono fun s visibility hs => (hab.requests s visibility).2 (.inl hs))
  obtain ⟨tb, htb⟩ := exists_transfer hneb hsourceb hdest
    (hable.mono fun s visibility hs => (hab.requests s visibility).2 (.inr hs))
  obtain ⟨-, hlabela, hgeta⟩ := transfer_eq_ok hne hsourcea hdest hta
  obtain ⟨-, hlabelb, hgetb⟩ := transfer_eq_ok hneb hsourceb hdest htb
  refine ⟨ta, tb, hta, htb, hlabel.trans hlabela.symm, hlabel.trans hlabelb.symm,
    fun target visibility => ?_⟩
  rw [hget, hgeta, hgetb, ← exists_or]
  refine exists_congr fun s => ?_
  rw [hab.requests, or_and_right]

/-- Sets that can be merged after their transfer can be merged before it, and then transferred
    to the same result. -/
theorem transfer_of_merge (hne : a.label ≠ label) (hlabels : b.label = a.label)
    {ta tb : Transferred} (hta : transfer catalog label a = .ok ta)
    (htb : transfer catalog label b = .ok tb) {out : Overrides}
    (hout : Overrides.IsUnion ta.overrides tb.overrides out) :
    ∃ ab, Overrides.IsUnion a b ab ∧ ∃ t, transfer catalog label ab = .ok t ∧ t.overrides = out := by
  have hneb : b.label ≠ label := fun h => hne (hlabels.symm.trans h)
  obtain ⟨source, dest, hsource, hdest⟩ :=
    resolve_of_transfer hne fun e herr => nomatch hta.symm.trans herr
  have hsourceb : catalog.resolve b.label = .ok source := hlabels ▸ hsource
  obtain ⟨hablea, hlabela, hgeta⟩ := transfer_eq_ok hne hsource hdest hta
  obtain ⟨hableb, -, hgetb⟩ := transfer_eq_ok hneb hsourceb hdest htb
  have hmoved : ∀ s target visibility, image? catalog source dest s = some target →
      a.get? s = some visibility ∨ b.get? s = some visibility →
        out.get? target = some visibility := by
    rintro s target visibility himage (hs | hs)
    · exact (hout.requests target visibility).2 (.inl ((hgeta target visibility).2 ⟨s, hs, himage⟩))
    · exact (hout.requests target visibility).2 (.inr ((hgetb target visibility).2 ⟨s, hs, himage⟩))
  -- a subject that both have meets itself at its image
  have hcompatible : a.Compatible b := by
    intro s v w hv hw
    obtain ⟨target, himage⟩ := Option.isSome_iff_exists.1 (hablea.isSome_image hv)
    have hleft := hmoved s target v himage (.inl hv)
    have hright := hmoved s target w himage (.inr hw)
    exact Option.some.inj (hleft.symm.trans hright)
  obtain ⟨ab, hab⟩ := Overrides.exists_union_iff.2 ⟨hlabels, hcompatible⟩
  have hable : Transferable catalog source dest ab := by
    refine transferable_of_images (fun s visibility hs => ?_) fun s s' target v v' hs hs' hi hi' => ?_
    · rcases (hab.requests s visibility).1 hs with hs | hs
      · exact hablea.isSome_image hs
      · exact hableb.isSome_image hs
    · have hv := hmoved s target v hi ((hab.requests s v).1 hs)
      have hv' := hmoved s' target v' hi' ((hab.requests s' v').1 hs')
      exact Option.some.inj (hv.symm.trans hv')
  have hneab : ab.label ≠ label := fun h => hne (hab.left.symm.trans h)
  have hsourceab : catalog.resolve ab.label = .ok source := hab.left.symm ▸ hsource
  obtain ⟨t, ht⟩ := exists_transfer hneab hsourceab hdest hable
  obtain ⟨-, hlabel, hget⟩ := transfer_eq_ok hneab hsourceab hdest ht
  refine ⟨ab, hab, t, ht, Overrides.ext_get? (hlabel.trans (hlabela.symm.trans hout.left.symm))
    fun target => Option.ext fun visibility => ?_⟩
  rw [hget, hout.requests, hgeta, hgetb, ← exists_or]
  refine exists_congr fun s => ?_
  rw [hab.requests, or_and_right]

end Merging

/-- **Transfer commutes with merging.** Two sets of one namespace can be merged and then
    transferred exactly if they can be transferred and then merged, and the result is the same. -/
theorem transfer_merge_iff (catalog : Catalog) (label : String) {a b : Overrides}
    (hlabels : b.label = a.label) (out : Overrides) :
    (∃ ab, a.merge b = (.ok (), ab) ∧ ∃ t, transfer catalog label ab = .ok t ∧ t.overrides = out)
      ↔ ∃ ta tb, transfer catalog label a = .ok ta ∧ transfer catalog label b = .ok tb
          ∧ ta.overrides.merge tb.overrides = (.ok (), out) := by
  simp only [Overrides.merge_eq_ok_iff]
  by_cases hne : a.label = label
  · have hsame : ∀ {o : Overrides}, o.label = a.label →
        transfer catalog label o = .ok { overrides := o, log := [] } :=
      fun h => transfer_of_label_eq (h.trans hne)
    constructor
    · rintro ⟨ab, hab, t, ht, rfl⟩
      obtain rfl := Except.ok.inj ((hsame hab.left).symm.trans ht)
      exact ⟨_, _, hsame rfl, hsame hlabels, hab⟩
    · rintro ⟨ta, tb, hta, htb, hout⟩
      obtain rfl := Except.ok.inj ((hsame rfl).symm.trans hta)
      obtain rfl := Except.ok.inj ((hsame hlabels).symm.trans htb)
      exact ⟨out, hout, _, hsame hout.left, rfl⟩
  · constructor
    · rintro ⟨ab, hab, t, ht, rfl⟩
      exact merge_of_transfer hne hab ht
    · rintro ⟨ta, tb, hta, htb, hout⟩
      exact transfer_of_merge hne hlabels hta htb hout

/-- Two fields of two sets that share an image: the sets are merged before or after. -/
theorem transfer_merge_iff_shared_image :
    ∃ catalog, Catalog.load
        "v1\to\ti\tn\nCLASS\ta\tc1\tBox\nFIELD\ta\tI\tb\tf1\tx\nFIELD\ta\tI\tc\tf1\ty\n" = .ok catalog
      ∧ ∃ a b out : Overrides, b.label = a.label ∧ a.label ≠ "i" ∧ out.size = 1
        ∧ (∃ ab, a.merge b = (.ok (), ab) ∧ ab.size = 2
            ∧ ∃ t, transfer catalog "i" ab = .ok t ∧ t.overrides = out)
        ∧ ∃ ta tb, transfer catalog "i" a = .ok ta ∧ transfer catalog "i" b = .ok tb
            ∧ ta.overrides.merge tb.overrides = (.ok (), out) := by
  let catalog : Catalog :=
    { format := .tinyV1
      namespaces := ⟨["o", "i", "n"]⟩
      classes := [⟨["a", "c1", "Box"],
        [⟨["b", "f1", "x"], ["I", "I", "I"]⟩, ⟨["c", "f1", "y"], ["I", "I", "I"]⟩], []⟩]
      fingerprint := Digest.fingerprintOf
        "v1\to\ti\tn\nCLASS\ta\tc1\tBox\nFIELD\ta\tI\tb\tf1\tx\nFIELD\ta\tI\tc\tf1\ty\n" }
  let a : Overrides := { label := "n", fields := .ofList [(⟨"Box", "x", "I"⟩, .toAll)] }
  let b : Overrides := { label := "n", fields := .ofList [(⟨"Box", "y", "I"⟩, .toAll)] }
  let ab : Overrides :=
    { label := "n", fields := .ofList [(⟨"Box", "x", "I"⟩, .toAll), (⟨"Box", "y", "I"⟩, .toAll)] }
  let out : Overrides := { label := "i", fields := .ofList [(⟨"c1", "f1", "I"⟩, .toAll)] }
  have hlabels : b.label = a.label := rfl
  have hab : a.merge b = (.ok (), ab) := rfl
  have ht : transfer catalog "i" ab = .ok ⟨out, _⟩ := rfl
  exact ⟨catalog, rfl, a, b, out, hlabels, by decide, rfl, ⟨ab, hab, rfl, _, ht, rfl⟩,
    (transfer_merge_iff catalog "i" hlabels out).1 ⟨ab, hab, _, ht, rfl⟩⟩

-- ── There and back ───────────────────────────────────────────────────────────

/-- A symbol of the catalog has this identity in the namespace at a position. -/
def Declares (catalog : Catalog) (ns : Nat) : Subject → Prop
  | .ofClass name => ∃ c ∈ catalog.classes, c.name ns = name
  | .ofMember kind m =>
    ∃ c ∈ catalog.classes, ∃ member ∈ c.members kind, Transfer.memberRef c member ns = m

instance (catalog : Catalog) (ns : Nat) : DecidablePred (Declares catalog ns)
  | .ofClass name => inferInstanceAs (Decidable (∃ c ∈ catalog.classes, c.name ns = name))
  | .ofMember kind m => inferInstanceAs (Decidable (∃ c ∈ catalog.classes,
      ∃ member ∈ c.members kind, Transfer.memberRef c member ns = m))

/-- One symbol of the catalog under its identities in two namespaces. -/
inductive SameSymbol (catalog : Catalog) (source dest : Nat) : Subject → Subject → Prop where
  | ofClass {c : ClassEntry} (hc : c ∈ catalog.classes) :
      SameSymbol catalog source dest (.ofClass (c.name source)) (.ofClass (c.name dest))
  | ofMember {kind : MemberKind} {c : ClassEntry} {member : Member} (hc : c ∈ catalog.classes)
      (hmember : member ∈ c.members kind) :
      SameSymbol catalog source dest (.ofMember kind (Transfer.memberRef c member source))
        (.ofMember kind (Transfer.memberRef c member dest))

section RoundTrip

variable {catalog : Catalog} {source dest : Nat} {s t : Subject}

theorem SameSymbol.symm (h : SameSymbol catalog source dest s t) :
    SameSymbol catalog dest source t s := by
  cases h with
  | ofClass hc => exact .ofClass hc
  | ofMember hc hmember => exact .ofMember hc hmember

theorem SameSymbol.declares (h : SameSymbol catalog source dest s t) :
    Declares catalog dest t := by
  cases h with
  | ofClass hc => exact ⟨_, hc, rfl⟩
  | ofMember hc hmember => exact ⟨_, hc, _, hmember, rfl⟩

theorem Declares.exists_same (h : Declares catalog source s) (dest : Nat) :
    ∃ t, SameSymbol catalog source dest s t := by
  cases s with
  | ofClass name =>
      obtain ⟨c, hc, rfl⟩ := h
      exact ⟨_, .ofClass hc⟩
  | ofMember kind m =>
      obtain ⟨c, hc, member, hmember, rfl⟩ := h
      exact ⟨_, .ofMember hc hmember⟩

/-- Where identities differ, so do those of the declared members of a kind. -/
theorem declared_nodup (h : DistinctIdentities source catalog.classes) (kind : MemberKind) :
    ((declared catalog kind).map fun e => Transfer.memberRef e.1 e.2 source).Nodup := by
  have hids : ((declared catalog kind).map fun e => Transfer.memberRef e.1 e.2 source).map
        (fun m => (m.owner, m.key))
      = Naming.memberIdsIn source kind catalog.classes := by
    rw [declared, Naming.memberIdsIn, List.map_map, List.map_flatMap]
    refine List.flatMap_congr fun c _ => ?_
    rw [List.map_map]
    rfl
  exact List.Nodup.of_map _ (hids ▸ h.ofMembers kind)

/-- **Where identities differ, a symbol goes to itself.** -/
theorem SameSymbol.image (hdistinct : DistinctIdentities source catalog.classes)
    (h : SameSymbol catalog source dest s t) : image? catalog source dest s = some t := by
  cases h with
  | @ofClass c hc =>
      have hone : catalog.classes.filter (fun d => d.name source = c.name source) = [c] :=
        Naming.filter_eq_singleton hdistinct.ofClasses hc
      rw [image?, classImage?, hone]
      rfl
  | @ofMember kind c member hc hmember =>
      have hdeclared : (c, member) ∈ declared catalog kind :=
        List.mem_flatMap.2 ⟨c, hc, List.mem_map.2 ⟨member, hmember, rfl⟩⟩
      have hone : (declared catalog kind).filter (fun e =>
            Transfer.memberRef e.1 e.2 source = Transfer.memberRef c member source)
          = [(c, member)] :=
        Naming.filter_eq_singleton (declared_nodup hdistinct kind) hdeclared
      rw [image?, declaredImage?, hone]
      rfl

/-- The image of a declared subject is the same symbol. -/
theorem Declares.same_of_image (h : Declares catalog source s)
    (hdistinct : DistinctIdentities source catalog.classes)
    (himage : image? catalog source dest s = some t) : SameSymbol catalog source dest s t := by
  obtain ⟨t', hsame⟩ := h.exists_same dest
  rw [hsame.image hdistinct] at himage
  exact Option.some.inj himage ▸ hsame

/-- Overrides for declared symbols can be transferred: no two subjects share an image. -/
theorem transferable_of_declares (hsource : DistinctIdentities source catalog.classes)
    (hdest : DistinctIdentities dest catalog.classes) {o : Overrides}
    (hdeclares : ∀ s visibility, o.get? s = some visibility → Declares catalog source s) :
    Transferable catalog source dest o := by
  refine transferable_of_images (fun s visibility hs => ?_) fun s s' target v v' hs hs' hi hi' => ?_
  · obtain ⟨t, hsame⟩ := (hdeclares s visibility hs).exists_same dest
    rw [hsame.image hsource]
    rfl
  · have hback := ((hdeclares s v hs).same_of_image hsource hi).symm.image hdest
    have hback' := ((hdeclares s' v' hs').same_of_image hsource hi').symm.image hdest
    obtain rfl : s = s' := Option.some.inj (hback.symm.trans hback')
    exact Option.some.inj (hs.symm.trans hs')

end RoundTrip

/-- **There and back.** Between two namespaces in each of which no two classes, no two fields and
    no two methods share their identity, overrides for declared symbols can be transferred with
    none lost, and the transfer back gives the overrides from which it started. -/
theorem transfer_round_trip {catalog : Catalog} {here there : String} {source dest : Nat}
    (hne : here ≠ there) (hsource : catalog.resolve here = .ok source)
    (hdest : catalog.resolve there = .ok dest)
    (hdistinct : DistinctIdentities source catalog.classes)
    (hdistinct' : DistinctIdentities dest catalog.classes) {o : Overrides} (hlabel : o.label = here)
    (hdeclares : ∀ e ∈ o.entries, Declares catalog source e.1) :
    ∃ out, transfer catalog there o = .ok out ∧ out.overrides.size = o.size
      ∧ ∃ back, transfer catalog here out.overrides = .ok back ∧ back.overrides = o := by
  subst hlabel
  have hdeclares : ∀ s visibility, o.get? s = some visibility → Declares catalog source s :=
    fun s visibility hs => hdeclares _ (Overrides.mem_entries_iff.2 hs)
  obtain ⟨out, hout⟩ := exists_transfer hne hsource hdest
    (transferable_of_declares hdistinct hdistinct' hdeclares)
  obtain ⟨-, hthere, hget⟩ := transfer_eq_ok hne hsource hdest hout
  have hneBack : out.overrides.label ≠ o.label := fun h => hne (h.symm.trans hthere)
  have hdestBack : catalog.resolve out.overrides.label = .ok dest := hthere.symm ▸ hdest
  have hdeclaresBack : ∀ t visibility, out.overrides.get? t = some visibility →
      Declares catalog dest t := by
    intro t visibility ht
    obtain ⟨s, hs, himage⟩ := (hget t visibility).1 ht
    exact ((hdeclares s visibility hs).same_of_image hdistinct himage).declares
  obtain ⟨back, hback⟩ := exists_transfer hneBack hdestBack hsource
    (transferable_of_declares hdistinct' hdistinct hdeclaresBack)
  obtain ⟨-, hhere, hgetBack⟩ := transfer_eq_ok hneBack hdestBack hsource hback
  have hsame : back.overrides = o := by
    refine Overrides.ext_get? hhere fun s => Option.ext fun visibility => ?_
    rw [hgetBack]
    constructor
    · rintro ⟨t, ht, himage⟩
      obtain ⟨s', hs', himage'⟩ := (hget t visibility).1 ht
      have hreturn := ((hdeclares s' visibility hs').same_of_image hdistinct himage').symm.image
        hdistinct'
      obtain rfl : s' = s := Option.some.inj (hreturn.symm.trans himage)
      exact hs'
    · intro hs
      obtain ⟨t, hsame⟩ := (hdeclares s visibility hs).exists_same dest
      exact ⟨t, (hget t visibility).2 ⟨s, hs, hsame.image hdistinct⟩, hsame.symm.image hdistinct'⟩
  refine ⟨out, hout, Nat.le_antisymm ?_ ?_, back, hback, hsame⟩
  · exact Overrides.size_le_of_images fun t visibility => (hget t visibility).1
  · have hle := Overrides.size_le_of_images fun s visibility => (hgetBack s visibility).1
    rwa [hsame] at hle

/-- A class, a field and a method whose descriptor mentions the class. -/
theorem transfer_round_trip_members :
    ∃ catalog, Catalog.load
        "v1\to\tn\nCLASS\ta\tBox\nFIELD\ta\tI\tb\tx\nMETHOD\ta\t(La;)V\tc\tput\n" = .ok catalog
      ∧ DistinctIdentities 0 catalog.classes ∧ DistinctIdentities 1 catalog.classes
      ∧ ∃ o : Overrides, o.label = "n" ∧ o.size = 3
        ∧ (∀ e ∈ o.entries, Declares catalog 1 e.1)
        ∧ ∃ out, transfer catalog "o" o = .ok out ∧ out.overrides.size = 3
          ∧ ∃ back, transfer catalog "n" out.overrides = .ok back ∧ back.overrides = o := by
  let catalog : Catalog :=
    { format := .tinyV1
      namespaces := ⟨["o", "n"]⟩
      classes := [⟨["a", "Box"], [⟨["b", "x"], ["I", "I"]⟩],
        [⟨["c", "put"], ["(La;)V", "(LBox;)V"]⟩]⟩]
      fingerprint := Digest.fingerprintOf
        "v1\to\tn\nCLASS\ta\tBox\nFIELD\ta\tI\tb\tx\nMETHOD\ta\t(La;)V\tc\tput\n" }
  let o : Overrides :=
    { label := "n"
      classes := .ofList [("Box", .toAll)]
      methods := .ofList [(⟨"Box", "put", "(LBox;)V"⟩, .toSubclasses)]
      fields := .ofList [(⟨"Box", "x", "I"⟩, .toOwner)] }
  have hold : DistinctIdentities 0 catalog.classes :=
    ⟨by decide, fun kind => by cases kind <;> decide⟩
  have hnew : DistinctIdentities 1 catalog.classes :=
    ⟨by decide, fun kind => by cases kind <;> decide⟩
  have hdeclares : ∀ e ∈ o.entries, Declares catalog 1 e.1 := by decide
  exact ⟨catalog, rfl, hold, hnew, o, rfl, rfl, hdeclares,
    transfer_round_trip (by decide) rfl rfl hnew hold rfl hdeclares⟩

end Nomenclator.Access
