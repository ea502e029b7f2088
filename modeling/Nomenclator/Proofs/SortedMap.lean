import Nomenclator.SortedMap

/-! # Sorted maps — entries, look-ups and sizes

    A sorted map is determined by its look-ups.  The route:

    * keys increase strictly, so a key stands in at most one entry and a look-up
      finds exactly that entry (`get?_eq_some_iff`);
    * `insert`, `eraseWhere` and `ofList` are then described by what they do to
      look-ups; `ofList` keeps the LAST value of a key (`get?_ofList`);
    * where no key is repeated, the order of the list does not matter
      (`ofList_congr`);
    * the last of some entries has the greatest of their keys, which is how a
      look-up at or below a bound finds its entry (`floor?_eq_some_iff`). -/

namespace Nomenclator.SortedMap

universe u v

variable {κ : Type u} {α : Type v} [Ord κ]

/-- A key below all keys of a list is not found in it. -/
theorem lookupIn_eq_none_of_lt {key : κ} {entries : List (κ × α)}
    (h : ∀ e ∈ entries, compare key e.1 = .lt) : lookupIn key entries = none := by
  cases entries with
  | nil => rfl
  | cons head rest =>
      obtain ⟨k, value⟩ := head
      have hk : compare key k = .lt := h (k, value) List.mem_cons_self
      simp only [lookupIn, hk]

section Lawful

variable [Std.TransOrd κ] [Std.LawfulEqOrd κ]

/-- In a list with increasing keys, a look-up finds exactly the entry of the key. -/
theorem lookupIn_eq_some_iff {key : κ} {value : α} {entries : List (κ × α)}
    (h : KeysIncrease entries) :
    lookupIn key entries = some value ↔ (key, value) ∈ entries := by
  induction entries with
  | nil => simp [lookupIn]
  | cons head rest ih =>
      obtain ⟨k, old⟩ := head
      have hrest : KeysIncrease rest := (List.pairwise_cons.1 h).2
      have hk : ∀ e ∈ rest, compare k e.1 = .lt := (List.pairwise_cons.1 h).1
      cases hc : compare key k with
      | lt =>
          have hlt : ∀ e ∈ (k, old) :: rest, compare key e.1 = .lt := by
            intro e he
            rcases List.mem_cons.1 he with rfl | he
            · exact hc
            · exact Std.TransCmp.lt_trans hc (hk e he)
          rw [lookupIn_eq_none_of_lt hlt]
          constructor
          · intro hnone
            cases hnone
          · intro hmem
            have hself := hlt _ hmem
            rw [Std.ReflOrd.compare_self] at hself
            cases hself
      | eq =>
          have hkey : key = k := Std.LawfulEqOrd.eq_of_compare hc
          subst hkey
          simp only [lookupIn, hc, Option.some.injEq, List.mem_cons, Prod.mk.injEq, true_and]
          constructor
          · intro hv
            exact .inl hv.symm
          · rintro (hv | hmem)
            · exact hv.symm
            · have hself := hk _ hmem
              rw [Std.ReflOrd.compare_self] at hself
              cases hself
      | gt =>
          have hne : key ≠ k := by
            intro e
            rw [e, Std.ReflOrd.compare_self] at hc
            cases hc
          simp only [lookupIn, hc, List.mem_cons, Prod.mk.injEq, hne, false_and, false_or]
          exact ih hrest

/-- **A look-up finds exactly the entry of the key.** -/
theorem get?_eq_some_iff {m : SortedMap κ α} {key : κ} {value : α} :
    m.get? key = some value ↔ (key, value) ∈ m.toList :=
  lookupIn_eq_some_iff m.increasing

/-- The keys of a map are those that a look-up finds. -/
theorem mem_keys_iff {m : SortedMap κ α} {key : κ} : key ∈ m.keys ↔ (m.get? key).isSome := by
  rw [Option.isSome_iff_exists, keys, List.mem_map]
  constructor
  · rintro ⟨e, he, rfl⟩
    exact ⟨e.2, get?_eq_some_iff.2 he⟩
  · rintro ⟨value, h⟩
    exact ⟨(key, value), get?_eq_some_iff.1 h, rfl⟩

theorem mem_keys_insert [DecidableEq κ] {m : SortedMap κ α} {key other : κ} {value : α} :
    other ∈ (m.insert key value).keys ↔ other = key ∨ other ∈ m.keys := by
  rw [mem_keys_iff, mem_keys_iff, get?_insert]
  by_cases heq : other = key
  · rw [if_pos heq]
    exact ⟨fun _ => .inl heq, fun _ => rfl⟩
  · rw [if_neg heq, or_iff_right heq]

omit [Std.TransOrd κ] in
/-- No key stands in two entries. -/
theorem keys_nodup (m : SortedMap κ α) : m.keys.Nodup := by
  refine List.pairwise_map.2 (m.increasing.imp ?_)
  intro a b hlt heq
  rw [heq, Std.ReflOrd.compare_self] at hlt
  exact nomatch hlt

/-- Lists with increasing keys and the same entries are the same list. -/
theorem eq_of_keysIncrease {a b : List (κ × α)} (ha : KeysIncrease a) (hb : KeysIncrease b)
    (h : ∀ e, e ∈ a ↔ e ∈ b) : a = b := by
  have hirrefl : ∀ {entries : List (κ × α)}, KeysIncrease entries → entries.Nodup := by
    intro entries hentries
    refine hentries.imp fun {x y} hlt heq => ?_
    rw [heq, Std.ReflOrd.compare_self] at hlt
    exact nomatch hlt
  have hperm := (List.perm_ext_iff_of_nodup (hirrefl ha) (hirrefl hb)).2 h
  refine hperm.eq_of_pairwise (fun x y _ _ hxy hyx => ?_) ha hb
  have hself := Std.TransCmp.lt_trans hxy hyx
  rw [Std.ReflOrd.compare_self] at hself
  exact nomatch hself

/-- **A map is determined by its look-ups.** -/
theorem ext_get? {m n : SortedMap κ α} (h : ∀ key, m.get? key = n.get? key) : m = n := by
  refine SortedMap.ext (eq_of_keysIncrease m.increasing n.increasing ?_)
  rintro ⟨key, value⟩
  rw [← get?_eq_some_iff, ← get?_eq_some_iff, h key]

/-- Members from which nothing is read may be left out before the reading. -/
theorem filterMap_filter_isSome {β : Type u} {γ : Type v} (f : β → Option γ) (xs : List β) :
    (xs.filter fun x => (f x).isSome).filterMap f = xs.filterMap f := by
  rw [List.filterMap_filter]
  refine congrArg (List.filterMap · xs) (funext fun x => ?_)
  cases hf : f x <;> rfl

/-- What is read off the entries depends only on those that it is read off. -/
theorem filterMap_toList_congr {β : Type v} {m m' : SortedMap κ α} {f : κ × α → Option β}
    (h : ∀ e, (f e).isSome → (e ∈ m.toList ↔ e ∈ m'.toList)) :
    m.toList.filterMap f = m'.toList.filterMap f := by
  have hsame :
      (m.toList.filter fun e => (f e).isSome) = m'.toList.filter fun e => (f e).isSome := by
    refine eq_of_keysIncrease (m.increasing.filter _) (m'.increasing.filter _) fun e => ?_
    rw [List.mem_filter, List.mem_filter]
    exact and_congr_left fun hf => h e hf
  rw [← filterMap_filter_isSome, hsame, filterMap_filter_isSome]

omit [Std.TransOrd κ] in
theorem toList_nodup (m : SortedMap κ α) : m.toList.Nodup :=
  List.Pairwise.of_map Prod.fst (fun _ _ hne heq => hne (congrArg Prod.fst heq)) (keys_nodup m)

/-- Erasing takes away exactly the keys that are dropped. -/
theorem get?_eraseWhere (m : SortedMap κ α) (drop : κ → Bool) (key : κ) :
    (m.eraseWhere drop).get? key = if drop key then none else m.get? key := by
  have hmem : ∀ value, (key, value) ∈ (m.eraseWhere drop).toList
      ↔ (key, value) ∈ m.toList ∧ drop key = false := by
    intro value
    show (key, value) ∈ m.toList.filter _ ↔ _
    rw [List.mem_filter, Bool.not_eq_true']
  cases hd : drop key with
  | true =>
      rw [if_pos rfl]
      cases hg : (m.eraseWhere drop).get? key with
      | none => rfl
      | some value =>
          have := ((hmem value).1 (get?_eq_some_iff.1 hg)).2
          rw [hd] at this
          exact nomatch this
  | false =>
      rw [if_neg Bool.false_ne_true]
      refine Option.ext fun value => ?_
      rw [get?_eq_some_iff, get?_eq_some_iff, hmem value]
      exact and_iff_left hd

-- ── The greatest key ─────────────────────────────────────────────────────────

/-- Of entries with increasing keys the last is the one with the greatest key. -/
theorem getLast?_eq_some_iff_greatest {entries : List (κ × α)} (h : KeysIncrease entries)
    {e : κ × α} : entries.getLast? = some e
      ↔ e ∈ entries ∧ ∀ other ∈ entries, (compare other.1 e.1).isLE = true := by
  constructor
  · intro hlast
    obtain ⟨front, rfl⟩ := List.getLast?_eq_some_iff.1 hlast
    refine ⟨List.mem_append_right _ List.mem_cons_self, fun other hother => ?_⟩
    rcases List.mem_append.1 hother with hfront | hself
    · rw [(List.pairwise_append.1 h).2.2 other hfront e List.mem_cons_self]
      rfl
    · rw [List.mem_singleton.1 hself, Std.ReflOrd.compare_self]
      rfl
  · rintro ⟨hmem, hgreatest⟩
    obtain ⟨front, back, rfl⟩ := List.append_of_mem hmem
    cases back with
    | nil => rw [List.getLast?_concat]
    | cons next later =>
        -- an entry after it would have a greater key
        have hnext := hgreatest next (by simp)
        have hlt := (List.pairwise_cons.1 (List.pairwise_append.1 h).2.1).1 next List.mem_cons_self
        rw [Std.OrientedCmp.gt_iff_lt.2 hlt] at hnext
        cases hnext

omit [Std.LawfulEqOrd κ] in
/-- The entries at or below a bound stand at the front. -/
theorem takeWhile_eq_filter {entries : List (κ × α)} (h : KeysIncrease entries) (bound : κ) :
    (entries.takeWhile fun e => (compare e.1 bound).isLE)
      = entries.filter fun e => (compare e.1 bound).isLE := by
  induction entries with
  | nil => rfl
  | cons head rest ih =>
      obtain ⟨hhead, hrest⟩ := List.pairwise_cons.1 h
      rw [List.takeWhile_cons, List.filter_cons]
      by_cases hle : (compare head.1 bound).isLE = true
      · rw [if_pos hle, if_pos hle, ih hrest]
      · rw [if_neg hle, if_neg hle]
        -- what comes after a key above the bound is above it as well
        refine (List.filter_eq_nil_iff.2 fun e he hin => hle ?_).symm
        refine Std.TransCmp.isLE_trans ?_ hin
        rw [hhead e he]
        rfl

/-- **The entry at or below a bound** is the one with the greatest such key. -/
theorem floor?_eq_some_iff {m : SortedMap κ α} {bound : κ} {e : κ × α} :
    m.floor? bound = some e ↔ e ∈ m.toList ∧ (compare e.1 bound).isLE = true
      ∧ ∀ key ∈ m.keys, (compare key bound).isLE = true → (compare key e.1).isLE = true := by
  rw [floor?, takeWhile_eq_filter m.increasing,
    getLast?_eq_some_iff_greatest (m.increasing.filter _), List.mem_filter, and_assoc]
  refine and_congr_right fun _ => and_congr_right fun _ => ⟨fun h key hkey hle => ?_,
    fun h other hother => ?_⟩
  · obtain ⟨other, hother, rfl⟩ := List.mem_map.1 hkey
    exact h other (List.mem_filter.2 ⟨hother, hle⟩)
  · obtain ⟨hmem, hle⟩ := List.mem_filter.1 hother
    exact h other.1 (List.mem_map_of_mem hmem) hle

omit [Std.LawfulEqOrd κ] in
theorem floor?_eq_none_iff {m : SortedMap κ α} {bound : κ} :
    m.floor? bound = none ↔ ∀ key ∈ m.keys, ¬ (compare key bound).isLE = true := by
  rw [floor?, takeWhile_eq_filter m.increasing, List.getLast?_eq_none_iff,
    List.filter_eq_nil_iff]
  refine ⟨fun h key hkey => ?_, fun h e he => h e.1 (List.mem_map_of_mem he)⟩
  obtain ⟨e, he, rfl⟩ := List.mem_map.1 hkey
  exact h e he

-- ── Several insertions ───────────────────────────────────────────────────────

variable [DecidableEq κ]

/-- Insertions of different keys commute. -/
theorem insert_comm (m : SortedMap κ α) {key other : κ} (h : key ≠ other) (value value' : α) :
    (m.insert key value).insert other value' = (m.insert other value').insert key value := by
  refine ext_get? fun k => ?_
  rw [get?_insert, get?_insert, get?_insert, get?_insert]
  by_cases hkey : k = key
  · rw [if_pos hkey, if_neg (hkey ▸ h), if_pos hkey]
  · rw [if_neg hkey, if_neg hkey]

/-- The later of two values for one key counts. -/
theorem insert_insert (m : SortedMap κ α) (key : κ) (old value : α) :
    (m.insert key old).insert key value = m.insert key value := by
  refine ext_get? fun other => ?_
  rw [get?_insert, get?_insert, get?_insert]
  by_cases heq : other = key
  · rw [if_pos heq, if_pos heq]
  · rw [if_neg heq, if_neg heq, if_neg heq]

/-- A new key comes to the entries that are there. -/
theorem toList_insert_perm {m : SortedMap κ α} {key : κ} (h : m.get? key = none) (value : α) :
    (m.insert key value).toList.Perm ((key, value) :: m.toList) := by
  have hnew : (key, value) ∉ m.toList := by
    intro hmem
    rw [get?_eq_some_iff.2 hmem] at h
    exact nomatch h
  refine (List.perm_ext_iff_of_nodup (toList_nodup _)
    (List.nodup_cons.2 ⟨hnew, toList_nodup m⟩)).2 fun e => ?_
  obtain ⟨k, v⟩ := e
  rw [List.mem_cons, ← get?_eq_some_iff, ← get?_eq_some_iff, get?_insert, Prod.mk.injEq]
  by_cases hk : k = key
  · rw [if_pos hk, hk, h, Option.some.injEq]
    constructor
    · intro hv
      exact .inl ⟨rfl, hv.symm⟩
    · rintro (⟨-, hv⟩ | hv)
      · exact hv.symm
      · exact nomatch hv
  · rw [if_neg hk]
    constructor
    · exact .inr
    · rintro (⟨hk', -⟩ | hv)
      · exact absurd hk' hk
      · exact hv

/-- Inserting entries one after the other: the last value given for a key counts, and a key
    that is not given keeps what it had. -/
theorem get?_insertAll (m : SortedMap κ α) (entries : List (κ × α)) (key : κ) :
    (m.insertAll entries).get? key
      = (((entries.filter fun e => e.1 = key).getLast?).map Prod.snd).or (m.get? key) := by
  induction entries generalizing m with
  | nil => rfl
  | cons head rest ih =>
      obtain ⟨k, value⟩ := head
      have hstep : (m.insertAll ((k, value) :: rest)) = (m.insert k value).insertAll rest := rfl
      rw [hstep, ih, get?_insert]
      by_cases hk : k = key
      · subst hk
        rw [if_pos rfl, List.filter_cons_of_pos (by simp), List.getLast?_cons]
        cases (rest.filter fun e => e.1 = k).getLast? <;> rfl
      · rw [if_neg (Ne.symm hk), List.filter_cons_of_neg (by simpa using hk)]

/-- **The last value of a key counts** in a map that is made from a list. -/
theorem get?_ofList (entries : List (κ × α)) (key : κ) :
    (ofList entries).get? key
      = ((entries.filter fun e => e.1 = key).getLast?).map Prod.snd := by
  rw [ofList, get?_insertAll, get?_empty, Option.or_none]

/-- The values of a table by keys, both read off the members of a list. -/
theorem get?_ofList_map {β : Type v} (xs : List β) (f : β → κ) (g : β → α) (key : κ) :
    (ofList (xs.map fun x => (f x, g x))).get? key
      = ((xs.filter fun x => f x = key).getLast?).map g := by
  rw [get?_ofList, List.filter_map, List.getLast?_map, Option.map_map]
  rfl

-- ── Lists in which no key is repeated ────────────────────────────────────────

/-- Where no key is given twice, every entry that is given counts. -/
theorem get?_insertAll_of_nodup {m : SortedMap κ α} {entries : List (κ × α)}
    (h : (entries.map Prod.fst).Nodup) {key : κ} {value : α} :
    (m.insertAll entries).get? key = some value
      ↔ (key, value) ∈ entries ∨ (key ∉ entries.map Prod.fst ∧ m.get? key = some value) := by
  induction entries generalizing m with
  | nil =>
      show m.get? key = some value ↔ _
      simp
  | cons head rest ih =>
      obtain ⟨k, v⟩ := head
      obtain ⟨hk, hrest⟩ := List.nodup_cons.1 h
      show ((m.insert k v).insertAll rest).get? key = some value ↔ _
      rw [ih hrest, get?_insert]
      by_cases heq : key = k
      · subst heq
        have hnot : (key, value) ∉ rest := fun hmem => hk (List.mem_map.2 ⟨_, hmem, rfl⟩)
        simp [hnot, hk, eq_comm]
      · simp [heq]

theorem toList_ofList_perm {entries : List (κ × α)} (h : (entries.map Prod.fst).Nodup) :
    (ofList entries).toList.Perm entries := by
  have hentries : entries.Nodup :=
    List.Pairwise.of_map Prod.fst (fun _ _ hne heq => hne (congrArg Prod.fst heq)) h
  refine (List.perm_ext_iff_of_nodup (toList_nodup _) hentries).2 fun e => ?_
  obtain ⟨key, value⟩ := e
  rw [← get?_eq_some_iff, ofList, get?_insertAll_of_nodup h, get?_empty]
  simp

/-- **The order of the list does not matter** where no key is repeated. -/
theorem ofList_congr {xs ys : List (κ × α)} (hperm : xs.Perm ys)
    (h : (xs.map Prod.fst).Nodup) : ofList xs = ofList ys := by
  have hys : (ys.map Prod.fst).Nodup := (hperm.map Prod.fst).nodup_iff.1 h
  refine SortedMap.ext (eq_of_keysIncrease (ofList xs).increasing (ofList ys).increasing
    fun e => ?_)
  rw [(toList_ofList_perm h).mem_iff, (toList_ofList_perm hys).mem_iff, hperm.mem_iff]

theorem ofList_toList (m : SortedMap κ α) : ofList m.toList = m :=
  SortedMap.ext (eq_of_keysIncrease (ofList m.toList).increasing m.increasing fun _ =>
    (toList_ofList_perm (keys_nodup m)).mem_iff)

/-- A map that is inserted into another one goes before it. -/
theorem get?_insertAll_toList (m n : SortedMap κ α) (key : κ) :
    (m.insertAll n.toList).get? key = (n.get? key).or (m.get? key) := by
  rw [get?_insertAll, ← get?_ofList, ofList_toList]

end Lawful

end Nomenclator.SortedMap
