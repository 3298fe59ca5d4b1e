import Mathlib
import ClosureConversion.Analysis.FreeNames
import ClosureConversion.Names.Table

/-!
# Lookups and memberships

What a table answers after an insertion (`Table.get?_insert`), that a lookup and the list of entries
say the same (`Table.mem_entries_iff`), that a table is fixed by its entries
(`Table.eq_entries_of_mem_iff`), and membership in the name sets that the analyses build by folding
(`NameSet.mem_insertAll`, `NameSet.mem_eraseAll`, `NameSet.mem_addFree`). The later modules use tables
and name sets through these statements only.
-/

namespace ClosureConversion

namespace Table

variable {κ α : Type} [Ord κ]

/-- Nothing is found in the empty table. -/
@[simp] theorem get?_empty (k : κ) : (∅ : Table κ α).get? k = none := rfl

/-- A key is present if something is found under it. -/
theorem contains_iff {t : Table κ α} {k : κ} : t.contains k = true ↔ ∃ v, t.get? k = some v := by
  unfold contains
  exact Option.isSome_iff_exists

variable [Std.LawfulEqOrd κ]

/-- Equal keys compare as equal. -/
theorem compare_eq_of_eq {k k' : κ} (h : k = k') : compare k k' = .eq :=
  Std.LawfulEqCmp.compare_eq_iff_eq.mpr h

/-- Two keys are found in each other's place exactly if they are equal. -/
theorem compare_beq_eq_iff {k k' : κ} : (compare k k' == .eq) = true ↔ k = k' := by
  rw [beq_iff_eq]
  exact Std.LawfulEqCmp.compare_eq_iff_eq

/-- Different keys do not compare as equal. -/
theorem compare_beq_eq_false {k k' : κ} (h : k ≠ k') : (compare k k' == .eq) = false := by
  rw [Bool.eq_false_iff]
  exact fun h' => h (compare_beq_eq_iff.mp h')

/-- What is found under a key has that key. -/
theorem key_eq_of_find? {es : List (κ × α)} {k : κ} {e : κ × α}
    (h : es.find? (fun e => compare k e.1 == .eq) = some e) : k = e.1 := by
  have := List.find?_some h
  exact compare_beq_eq_iff.mp this

/-- What is found after an insertion. -/
theorem find?_insertEntry (k : κ) (v : α) (es : List (κ × α)) (k' : κ) :
    (insertEntry k v es).find? (fun e => compare k' e.1 == .eq) =
      if compare k' k == .eq then some (k, v) else es.find? (fun e => compare k' e.1 == .eq) := by
  induction es with
  | nil =>
      simp only [insertEntry, List.find?_cons, List.find?_nil]
      split <;> simp_all
  | cons d rest ih =>
      simp only [insertEntry]
      split
      next hlt =>
        rw [List.find?_cons]
        split <;> simp_all
      next heq =>
        have hk : k = d.1 := Std.LawfulEqCmp.eq_of_compare heq
        rw [List.find?_cons, List.find?_cons, ← hk]
        cases compare k' k == .eq <;> rfl
      next hgt =>
        rw [List.find?_cons, ih, List.find?_cons]
        by_cases hd : k' = d.1
        · have hne : k' ≠ k := by
            intro he
            rw [compare_eq_of_eq (he.symm.trans hd)] at hgt
            exact Ordering.noConfusion hgt
          rw [compare_beq_eq_false hne, compare_beq_eq_iff.mpr hd]
          rfl
        · rw [compare_beq_eq_false hd]

/-- In entries with increasing keys no two share a key. -/
theorem eq_of_mem_of_key_eq {es : List (κ × α)}
    (hs : es.Pairwise (fun a b => compare a.1 b.1 = .lt)) {e e' : κ × α} (he : e ∈ es)
    (he' : e' ∈ es) (hk : e.1 = e'.1) : e = e' := by
  induction es with
  | nil => exact absurd he List.not_mem_nil
  | cons d rest ih =>
      obtain ⟨hd, hrest⟩ := List.pairwise_cons.mp hs
      have hirr : ∀ f ∈ rest, d.1 ≠ f.1 := by
        intro f hf h
        have hlt := hd f hf
        rw [compare_eq_of_eq h] at hlt
        exact Ordering.noConfusion hlt
      rcases List.mem_cons.mp he with rfl | hin
      · rcases List.mem_cons.mp he' with rfl | hin'
        · rfl
        · exact absurd hk (hirr e' hin')
      · rcases List.mem_cons.mp he' with rfl | hin'
        · exact absurd hk.symm (hirr e hin)
        · exact ih hrest hin hin'

/-- No two entries of a table share a key. -/
theorem pairwise_key_ne (t : Table κ α) : t.entries.Pairwise fun e e' => e.1 ≠ e'.1 := by
  refine t.sorted.imp fun hlt he => ?_
  rw [compare_eq_of_eq he] at hlt
  exact absurd hlt (by decide)

/-- The entries of a table are its answers. -/
theorem mem_entries_iff {t : Table κ α} {k : κ} {v : α} :
    (k, v) ∈ t.entries ↔ t.get? k = some v := by
  unfold get?
  constructor
  · intro h
    cases hf : t.entries.find? (fun e => compare k e.1 == .eq) with
    | none =>
        have := List.find?_eq_none.mp hf (k, v) h
        exact absurd (compare_beq_eq_iff.mpr rfl) this
    | some e =>
        have he := List.mem_of_find?_eq_some hf
        have hk : k = e.1 := key_eq_of_find? hf
        have := eq_of_mem_of_key_eq t.sorted h he hk
        rw [← this]
        rfl
  · intro h
    obtain ⟨e, hf, rfl⟩ := Option.map_eq_some_iff.mp h
    have hk : k = e.1 := key_eq_of_find? hf
    rw [hk]
    exact List.mem_of_find?_eq_some hf

/-- The values are what is found under some key. -/
theorem mem_values_iff {t : Table κ α} {v : α} : v ∈ t.values ↔ ∃ k, t.get? k = some v := by
  unfold values
  rw [List.mem_map]
  constructor
  · rintro ⟨⟨k, w⟩, he, rfl⟩
    exact ⟨k, mem_entries_iff.mp he⟩
  · rintro ⟨k, hk⟩
    exact ⟨(k, v), mem_entries_iff.mpr hk, rfl⟩

/-- The keys are those under which something is found. -/
theorem mem_keys_iff {t : Table κ α} {k : κ} : k ∈ t.keys ↔ ∃ v, t.get? k = some v := by
  unfold keys
  rw [List.mem_map]
  constructor
  · rintro ⟨⟨k', v⟩, he, rfl⟩
    exact ⟨v, mem_entries_iff.mp he⟩
  · rintro ⟨v, hv⟩
    exact ⟨(k, v), mem_entries_iff.mpr hv, rfl⟩

variable [Std.TransOrd κ] [DecidableEq κ]

/-- An insertion changes the answer for its own key and no other. -/
theorem get?_insert (t : Table κ α) (k : κ) (v : α) (k' : κ) :
    (t.insert k v).get? k' = if k' = k then some v else t.get? k' := by
  unfold get? insert
  rw [find?_insertEntry]
  by_cases h : k' = k
  · rw [if_pos h, if_pos (compare_beq_eq_iff.mpr h)]
    rfl
  · rw [if_neg h, if_neg fun h' => h (compare_beq_eq_iff.mp h')]

/-- What was inserted is found. -/
theorem get?_insert_self (t : Table κ α) (k : κ) (v : α) :
    (t.insert k v).get? k = some v := by
  rw [get?_insert, if_pos rfl]

/-- What was there under another key is found. -/
theorem get?_insert_of_ne (t : Table κ α) {k k' : κ} (v : α) (h : k' ≠ k) :
    (t.insert k v).get? k' = t.get? k' := by
  rw [get?_insert, if_neg h]

/-- The keys after an insertion. -/
theorem contains_insert (t : Table κ α) (k : κ) (v : α) (k' : κ) :
    (t.insert k v).contains k' = true ↔ k' = k ∨ t.contains k' = true := by
  rw [contains_iff, contains_iff, get?_insert]
  by_cases h : k' = k
  · simp [h]
  · simp [h]

omit [DecidableEq κ] in
/-- Entries with increasing keys are those of a table if they are the same ones. -/
theorem eq_entries_of_mem_iff {t : Table κ α} {es : List (κ × α)}
    (hs : es.Pairwise (fun a b => compare a.1 b.1 = .lt)) (h : ∀ e, e ∈ es ↔ e ∈ t.entries) :
    es = t.entries := by
  have : Std.Irrefl fun a b : κ × α => compare a.1 b.1 = .lt :=
    ⟨fun e he => by rw [compare_eq_of_eq rfl] at he; cases he⟩
  have : Std.Antisymm fun a b : κ × α => compare a.1 b.1 = .lt := by
    refine ⟨fun e e' he he' => ?_⟩
    have hlt := Std.TransCmp.lt_trans he he'
    rw [compare_eq_of_eq rfl] at hlt
    cases hlt
  exact hs.eq_of_mem_iff t.sorted h

/-- Insert entries one after the other. -/
def insertAll (t : Table κ α) (es : List (κ × α)) : Table κ α :=
  es.foldl (fun t e => t.insert e.1 e.2) t

/-- The keys after several insertions. -/
theorem contains_insertAll {t : Table κ α} {es : List (κ × α)} {k : κ} :
    (t.insertAll es).contains k = true ↔ t.contains k = true ∨ ∃ e ∈ es, e.1 = k := by
  unfold insertAll
  induction es generalizing t with
  | nil => simp
  | cons e es ih =>
      rw [List.foldl_cons, ih, contains_insert]
      simp only [List.mem_cons, exists_eq_or_imp]
      tauto

/-- An answer after insertions was there before or is one of the entries. -/
theorem mem_of_get?_insertAll {t : Table κ α} {es : List (κ × α)} {k : κ} {v : α}
    (h : (t.insertAll es).get? k = some v) : t.get? k = some v ∨ (k, v) ∈ es := by
  unfold insertAll at h
  induction es generalizing t with
  | nil => exact .inl h
  | cons e es ih =>
      rw [List.foldl_cons] at h
      rcases ih h with h | h
      · rw [get?_insert] at h
        split at h
        next hk =>
          cases h
          exact .inr (List.mem_cons.mpr (.inl (Prod.ext hk rfl)))
        next => exact .inl h
      · exact .inr (List.mem_cons_of_mem _ h)

/-- A table made of entries with different keys has these entries. -/
theorem mem_entries_insertAll {es : List (κ × α)} (hn : (es.map (·.1)).Nodup) {e : κ × α} :
    e ∈ ((∅ : Table κ α).insertAll es).entries ↔ e ∈ es := by
  obtain ⟨k, v⟩ := e
  rw [mem_entries_iff]
  constructor
  · intro h
    exact (mem_of_get?_insertAll h).resolve_left (by simp)
  · intro h
    have hin : ((∅ : Table κ α).insertAll es).contains k = true :=
      contains_insertAll.mpr (.inr ⟨(k, v), h, rfl⟩)
    obtain ⟨w, hw⟩ := contains_iff.mp hin
    have hmem : (k, w) ∈ es := (mem_of_get?_insertAll hw).resolve_left (by simp)
    obtain ⟨-, rfl⟩ := Prod.mk.inj (List.inj_on_of_nodup_map hn hmem h rfl)
    exact hw

end Table

namespace NameSet

/-- A set is its list. -/
theorem eq_of_toList_eq {s s' : NameSet} (h : s.toList = s'.toList) : s = s' := by
  cases s
  cases s'
  simp only at h
  subst h
  rfl

/-- The test says that nothing belongs to the set. -/
theorem isEmpty_iff {s : NameSet} : s.isEmpty = true ↔ ∀ n, n ∉ s := by
  unfold isEmpty
  rw [List.isEmpty_iff, List.eq_nil_iff_forall_not_mem]
  rfl

/-- The empty set is the one to which nothing belongs. -/
theorem eq_empty_iff {s : NameSet} : s = ∅ ↔ ∀ n, n ∉ s := by
  constructor
  · rintro rfl n
    exact not_mem_empty n
  · intro h
    exact eq_of_toList_eq (List.eq_nil_iff_forall_not_mem.mpr h)

/-- A name that is present already is not inserted again. -/
theorem insert_of_mem {s : NameSet} {n : Name} (h : n ∈ s) : s.insert n = s := dif_pos h

/-- What belongs to a set after several insertions. -/
theorem mem_insertAll {s : NameSet} {names : List Name} {n : Name} :
    n ∈ s.insertAll names ↔ n ∈ s ∨ n ∈ names := by
  unfold insertAll
  induction names generalizing s with
  | nil => simp
  | cons m rest ih =>
      rw [List.foldl_cons, ih, mem_insert, List.mem_cons, or_assoc]

/-- What belongs to a set after several removals. -/
theorem mem_eraseAll {s : NameSet} {names : List Name} {n : Name} :
    n ∈ s.eraseAll names ↔ n ∈ s ∧ n ∉ names := by
  unfold eraseAll
  induction names generalizing s with
  | nil => simp
  | cons m rest ih =>
      rw [List.foldl_cons, ih, mem_erase, List.mem_cons, not_or, and_assoc]

/-- What is found after a reading: what was found and the read names that are not bound. -/
theorem mem_addFree {found : NameSet} {bound names : List Name} {n : Name} :
    n ∈ found.addFree bound names ↔ n ∈ found ∨ (n ∈ names ∧ n ∉ bound) := by
  unfold addFree
  rw [mem_insertAll, List.mem_filter, decide_eq_true_iff]

end NameSet

end ClosureConversion
