/-!
# Tables that keep their order

A table from keys to values that remembers in which order its keys came. A key that is written
again keeps its place. The view of a table is its list of entries, in which no key occurs twice;
what an operation does to it is said twice, for lookups (`get?_insert`) and for the order of the
keys (`keys_insert`).
-/

namespace JarRemap

/-- A table with its entries in order of insertion. -/
structure OrderedMap (κ ν : Type) where
  entries : List (κ × ν)
  /-- No key occurs twice. -/
  nodup : (entries.map Prod.fst).Nodup

namespace OrderedMap

variable {κ ν : Type}

/-- The table without entries. -/
def empty : OrderedMap κ ν := ⟨[], List.nodup_nil⟩

instance : EmptyCollection (OrderedMap κ ν) := ⟨empty⟩

instance : Inhabited (OrderedMap κ ν) := ⟨empty⟩

/-- The keys, in order. -/
def keys (m : OrderedMap κ ν) : List κ := m.entries.map Prod.fst

/-- The values, in order of their keys. -/
def values (m : OrderedMap κ ν) : List ν := m.entries.map Prod.snd

/-- How many keys the table has. -/
def size (m : OrderedMap κ ν) : Nat := m.entries.length

/-- Whether the table has no entry. -/
def isEmpty (m : OrderedMap κ ν) : Bool := m.entries.isEmpty

variable [DecidableEq κ]

/-- The value of a key. -/
def get? (m : OrderedMap κ ν) (k : κ) : Option ν :=
  (m.entries.find? fun e => e.1 = k).map Prod.snd

/-- Whether a key has a value. -/
def contains (m : OrderedMap κ ν) (k : κ) : Bool := m.entries.any fun e => e.1 = k

omit [DecidableEq κ] in
/-- Changing values keeps the keys. -/
theorem map_fst_map {f : κ × ν → κ × ν} (h : ∀ e, (f e).1 = e.1) (l : List (κ × ν)) :
    (l.map f).map Prod.fst = l.map Prod.fst := by
  induction l with
  | nil => rfl
  | cons e l ih => simp [h, ih]

theorem mem_keys_of_contains_eq_false {m : OrderedMap κ ν} {k : κ} (h : m.contains k = false) :
    k ∉ m.entries.map Prod.fst := by
  simp only [contains, List.any_eq_false, decide_eq_true_eq] at h
  rintro hk
  obtain ⟨e, he, rfl⟩ := List.mem_map.1 hk
  exact h e he rfl

/-- Change the value of a key, if it has one. -/
def modify (m : OrderedMap κ ν) (k : κ) (f : ν → ν) : OrderedMap κ ν where
  entries := m.entries.map fun e => if e.1 = k then (e.1, f e.2) else e
  nodup := by
    rw [map_fst_map (fun e => by split <;> rfl)]
    exact m.nodup

/-- Give a key without a value one, behind all others; a key that has a value keeps it. -/
def insertNew (m : OrderedMap κ ν) (k : κ) (v : ν) : OrderedMap κ ν :=
  if h : m.contains k then m
  else
    { entries := m.entries ++ [(k, v)]
      nodup := by
        rw [List.map_append, List.nodup_append]
        refine ⟨m.nodup, by simp, ?_⟩
        intro a ha b hb
        simp only [List.map_cons, List.map_nil, List.mem_singleton] at hb
        rintro rfl
        exact mem_keys_of_contains_eq_false (by simpa using h) (hb ▸ ha) }

/-- Give a key a value: in its place if it has one, else behind all others. -/
def insert (m : OrderedMap κ ν) (k : κ) (v : ν) : OrderedMap κ ν :=
  if m.contains k then m.modify k fun _ => v else m.insertNew k v

/-- Take a key out. -/
def erase (m : OrderedMap κ ν) (k : κ) : OrderedMap κ ν where
  entries := m.entries.filter fun e => e.1 ≠ k
  nodup := m.nodup.sublist (List.filter_sublist.map Prod.fst)

/-- Insert one entry after the other. -/
def insertAll (m : OrderedMap κ ν) (l : List (κ × ν)) : OrderedMap κ ν :=
  l.foldl (fun m e => m.insert e.1 e.2) m

/-- The table of a list of entries, in which a later entry wins over an earlier one. -/
def ofList (l : List (κ × ν)) : OrderedMap κ ν := empty.insertAll l

@[simp] theorem get?_empty (k : κ) : (empty : OrderedMap κ ν).get? k = none := rfl

@[simp] theorem contains_empty (k : κ) : (empty : OrderedMap κ ν).contains k = false := rfl

theorem contains_eq_isSome_get? (m : OrderedMap κ ν) (k : κ) :
    m.contains k = (m.get? k).isSome := by
  simp [contains, get?, List.isSome_find?]

/-- Changing values by a rule that keeps the keys changes what is found by the same rule. -/
theorem find?_map_of_fst {f : κ × ν → κ × ν} (h : ∀ e, (f e).1 = e.1) (l : List (κ × ν)) (k : κ) :
    (l.map f).find? (fun e => e.1 = k) = (l.find? fun e => e.1 = k).map f := by
  induction l with
  | nil => rfl
  | cons e l ih => by_cases he : e.1 = k <;> simp [h, he, ih]

/-- A changed value is found under its key, every other value as before. -/
theorem get?_modify (m : OrderedMap κ ν) (k j : κ) (f : ν → ν) :
    (m.modify k f).get? j = if j = k then (m.get? k).map f else m.get? j := by
  simp only [get?, modify]
  rw [find?_map_of_fst (fun e => by split <;> rfl)]
  by_cases hj : j = k
  · subst hj
    cases h : m.entries.find? (fun e => e.1 = j) with
    | none => simp
    | some e =>
      have he : e.1 = j := by simpa using List.find?_some h
      simp [he]
  · cases h : m.entries.find? (fun e => e.1 = j) with
    | none => simp [hj]
    | some e =>
      have he : e.1 = j := by simpa using List.find?_some h
      simp [hj, he]

/-- A new key finds its value, a key that was there keeps its own. -/
theorem get?_insertNew (m : OrderedMap κ ν) (k j : κ) (v : ν) :
    (m.insertNew k v).get? j = if j = k then some ((m.get? k).getD v) else m.get? j := by
  unfold insertNew
  split
  · next h =>
    rw [contains_eq_isSome_get?] at h
    split
    · next e =>
      subst e
      obtain ⟨w, hw⟩ := Option.isSome_iff_exists.1 h
      simp [hw]
    · rfl
  · next h =>
    rw [contains_eq_isSome_get?] at h
    have hn : m.get? k = none := by simpa using h
    by_cases e : j = k
    · subst e
      simp only [get?, Option.map_eq_none_iff] at hn
      simp [get?, List.find?_append, hn]
    · have e' : ¬ k = j := fun x => e x.symm
      simp [get?, List.find?_append, e, e']

/-- A value is changed that may be given to its key before. -/
theorem get?_modify_insertNew (m : OrderedMap κ ν) (k j : κ) (v : ν) (f : ν → ν) :
    ((m.insertNew k v).modify k f).get? j =
      if j = k then some (f ((m.get? j).getD v)) else m.get? j := by
  rw [get?_modify, get?_insertNew, get?_insertNew]
  by_cases h : j = k
  · rw [if_pos h, if_pos h, if_pos rfl, Option.map_some, h]
  · rw [if_neg h, if_neg h, if_neg h]

/-- The last value given to a key is the one it has. -/
theorem get?_insert (m : OrderedMap κ ν) (k j : κ) (v : ν) :
    (m.insert k v).get? j = if j = k then some v else m.get? j := by
  unfold insert
  split
  · next h =>
    rw [contains_eq_isSome_get?] at h
    obtain ⟨w, hw⟩ := Option.isSome_iff_exists.1 h
    rw [get?_modify, hw]
    rfl
  · next h =>
    rw [contains_eq_isSome_get?] at h
    have hn : m.get? k = none := by simpa using h
    rw [get?_insertNew, hn]
    rfl

/-- A key that was taken out has no value. -/
theorem get?_erase (m : OrderedMap κ ν) (k j : κ) :
    (m.erase k).get? j = if j = k then none else m.get? j := by
  simp only [get?, erase, List.find?_filter]
  split
  · next h =>
    subst h
    simp
  · next h =>
    congr 2
    funext e
    by_cases he : e.1 = j
    · simp [he, h]
    · simp [he]

/-- Changing a value keeps the keys in their order. -/
theorem keys_modify (m : OrderedMap κ ν) (k : κ) (f : ν → ν) : (m.modify k f).keys = m.keys :=
  map_fst_map (fun e => by split <;> rfl) m.entries

/-- A new key comes last. -/
theorem keys_insertNew (m : OrderedMap κ ν) (k : κ) (v : ν) :
    (m.insertNew k v).keys = if m.contains k then m.keys else m.keys ++ [k] := by
  unfold insertNew
  split
  · rfl
  · simp [keys]

/-- A key that is written again keeps its place, a new one comes last. -/
theorem keys_insert (m : OrderedMap κ ν) (k : κ) (v : ν) :
    (m.insert k v).keys = if m.contains k then m.keys else m.keys ++ [k] := by
  unfold insert
  split
  · exact keys_modify m k _
  · next h => rw [keys_insertNew, if_neg h]

/-- What is found under a key is the entry of the key, since no key occurs twice. -/
theorem get?_eq_some_iff {m : OrderedMap κ ν} {k : κ} {v : ν} :
    m.get? k = some v ↔ (k, v) ∈ m.entries := by
  constructor
  · intro h
    obtain ⟨e, he, rfl⟩ := Option.map_eq_some_iff.1 h
    have hk : e.1 = k := by simpa using List.find?_some he
    rw [← hk]
    exact List.mem_of_find?_eq_some he
  · intro h
    have hnodup := m.nodup
    unfold get?
    generalize m.entries = l at h hnodup ⊢
    induction l with
    | nil => cases h
    | cons e l ih =>
      rw [List.map_cons, List.nodup_cons] at hnodup
      rcases List.mem_cons.1 h with rfl | h
      · simp
      · have hne : e.1 ≠ k := by
          rintro rfl
          exact hnodup.1 (List.mem_map.2 ⟨_, h, rfl⟩)
        simpa [hne] using ih h hnodup.2

theorem mem_values_iff {m : OrderedMap κ ν} {v : ν} : v ∈ m.values ↔ ∃ k, m.get? k = some v := by
  simp only [values, List.mem_map, get?_eq_some_iff]
  constructor
  · rintro ⟨e, he, rfl⟩
    exact ⟨e.1, he⟩
  · rintro ⟨k, hk⟩
    exact ⟨(k, v), hk, rfl⟩

/-- What is listed under a key is listed in the table. -/
theorem mem_flatten_values {m : OrderedMap κ (List ν)} {k : κ} {a : ν}
    (h : a ∈ (m.get? k).getD []) : a ∈ m.values.flatten := by
  cases hget : m.get? k with
  | none =>
    rw [hget] at h
    cases h
  | some listed =>
    rw [hget] at h
    exact List.mem_flatten.2 ⟨listed, mem_values_iff.2 ⟨k, hget⟩, h⟩

/-- Of the entries of one key the last one counts. -/
theorem get?_insertAll (m : OrderedMap κ ν) (l : List (κ × ν)) (k : κ) :
    (m.insertAll l).get? k =
      ((l.reverse.find? fun e => e.1 = k).map Prod.snd).or (m.get? k) := by
  induction l generalizing m with
  | nil => simp [insertAll]
  | cons e l ih =>
    have hcons : m.insertAll (e :: l) = (m.insert e.1 e.2).insertAll l := rfl
    rw [hcons, ih, get?_insert, List.reverse_cons, List.find?_append]
    cases l.reverse.find? fun e => e.1 = k with
    | some e' => simp
    | none =>
      by_cases h : e.1 = k
      · simp [h]
      · have hk : ¬ k = e.1 := fun hk => h hk.symm
        simp [h, hk]

/-- Entries with new keys, each of them once, come behind those that are there. -/
theorem entries_insertAll {m : OrderedMap κ ν} {l : List (κ × ν)}
    (h : ((m.entries ++ l).map Prod.fst).Nodup) : (m.insertAll l).entries = m.entries ++ l := by
  induction l generalizing m with
  | nil => simp [insertAll]
  | cons e l ih =>
    have hkeys : (m.entries ++ e :: l).map Prod.fst =
        m.entries.map Prod.fst ++ e.1 :: l.map Prod.fst := by simp
    have hnew : m.contains e.1 = false := by
      rw [hkeys, List.nodup_append] at h
      simp only [contains, List.any_eq_false, decide_eq_true_eq]
      rintro other hother hsame
      exact h.2.2 _ (List.mem_map.2 ⟨other, hother, rfl⟩) _ List.mem_cons_self hsame
    have hinsert : (m.insert e.1 e.2).entries = m.entries ++ [e] := by
      simp [insert, insertNew, hnew]
    have hrest := ih (m := m.insert e.1 e.2) (by simpa [hinsert] using h)
    rw [insertAll, List.foldl_cons]
    rw [insertAll] at hrest
    rw [hrest, hinsert, List.append_assoc, List.singleton_append]

/-- A table is made again from its entries. -/
theorem ofList_entries (m : OrderedMap κ ν) : ofList m.entries = m := by
  have hentries : (ofList m.entries).entries = m.entries := entries_insertAll m.nodup
  cases m with
  | mk entries nodup =>
    cases h : ofList entries with
    | mk entries' nodup' =>
      rw [h] at hentries
      congr

/-- The entries of a table win over those of the table they are inserted into. -/
theorem get?_insertAll_entries (m other : OrderedMap κ ν) (k : κ) :
    (m.insertAll other.entries).get? k = (other.get? k).or (m.get? k) := by
  have hother := get?_insertAll empty other.entries k
  rw [get?_empty, Option.or_none, ← ofList, ofList_entries] at hother
  rw [get?_insertAll, hother]

/-- Every value of a table that is made from a list stands in the list. -/
theorem mem_of_get?_ofList {l : List (κ × ν)} {k : κ} {v : ν} (h : (ofList l).get? k = some v) :
    (k, v) ∈ l := by
  rw [ofList, get?_insertAll, get?_empty, Option.or_none] at h
  obtain ⟨e, he, rfl⟩ := Option.map_eq_some_iff.1 h
  have hk : e.1 = k := by simpa using List.find?_some he
  rw [← hk]
  exact List.mem_reverse.1 (List.mem_of_find?_eq_some he)

/-- A key of a list finds a value in the table that is made from the list. -/
theorem isSome_get?_ofList {l : List (κ × ν)} {k : κ} {v : ν} (h : (k, v) ∈ l) :
    ((ofList l).get? k).isSome := by
  rw [ofList, get?_insertAll, get?_empty, Option.or_none, Option.isSome_map, List.find?_isSome]
  exact ⟨(k, v), List.mem_reverse.2 h, by simp⟩

/-- The keys of a table that is made from a list are those of the list. -/
theorem contains_ofList_iff {l : List (κ × ν)} {k : κ} :
    (ofList l).contains k = true ↔ k ∈ l.map Prod.fst := by
  rw [contains_eq_isSome_get?]
  constructor
  · intro h
    obtain ⟨v, hv⟩ := Option.isSome_iff_exists.1 h
    exact List.mem_map.2 ⟨(k, v), mem_of_get?_ofList hv, rfl⟩
  · intro h
    obtain ⟨e, he, rfl⟩ := List.mem_map.1 h
    exact isSome_get?_ofList he

/-- An entry of a list is found if no other entry has its key. -/
theorem get?_ofList_of_mem {l : List (κ × ν)} {k : κ} {v : ν} (h : (k, v) ∈ l)
    (hunique : ∀ w, (k, w) ∈ l → w = v) : (ofList l).get? k = some v := by
  obtain ⟨w, hw⟩ := Option.isSome_iff_exists.1 (isSome_get?_ofList h)
  rw [hw, hunique w (mem_of_get?_ofList hw)]

end OrderedMap

/-- Put a value behind a list that does not hold it yet. -/
def addNew {α : Type} [DecidableEq α] (l : List α) (a : α) : List α :=
  if a ∈ l then l else l ++ [a]

/-- Put the values of a second list behind the first, each at most once. -/
def addAllNew {α : Type} [DecidableEq α] (l new : List α) : List α := new.foldl addNew l

/-- A list that holds each value once stays so. -/
theorem nodup_addNew {α : Type} [DecidableEq α] {l : List α} (h : l.Nodup) (a : α) :
    (addNew l a).Nodup := by
  unfold addNew
  split
  · exact h
  · next ha =>
    rw [List.nodup_append]
    refine ⟨h, by simp, ?_⟩
    intro x hx y hy
    rw [List.mem_singleton.1 hy]
    rintro rfl
    exact ha hx

/-- New values come last. -/
theorem prefix_addNew {α : Type} [DecidableEq α] (l : List α) (a : α) : l <+: addNew l a := by
  unfold addNew
  split
  · exact List.prefix_refl l
  · exact List.prefix_append l [a]

theorem prefix_addAllNew {α : Type} [DecidableEq α] (l new : List α) : l <+: addAllNew l new := by
  induction new generalizing l with
  | nil => exact List.prefix_refl l
  | cons a new ih => exact (prefix_addNew l a).trans (ih (addNew l a))

theorem nodup_addAllNew {α : Type} [DecidableEq α] {l : List α} (h : l.Nodup) (new : List α) :
    (addAllNew l new).Nodup := by
  induction new generalizing l with
  | nil => exact h
  | cons a new ih => exact ih (nodup_addNew h a)

@[simp] theorem mem_addNew {α : Type} [DecidableEq α] {l : List α} {a x : α} :
    x ∈ addNew l a ↔ x ∈ l ∨ x = a := by
  unfold addNew
  split
  · next h =>
    constructor
    · exact .inl
    · rintro (hx | rfl)
      · exact hx
      · exact h
  · simp

@[simp] theorem mem_addAllNew {α : Type} [DecidableEq α] {l new : List α} {x : α} :
    x ∈ addAllNew l new ↔ x ∈ l ∨ x ∈ new := by
  induction new generalizing l with
  | nil => simp [addAllNew]
  | cons a new ih =>
    have hcons : addAllNew l (a :: new) = addAllNew (addNew l a) new := rfl
    rw [hcons, ih, mem_addNew, List.mem_cons, or_assoc]

/-- Values that a list does not hold yet, each of them once, come behind it as they are. -/
theorem addAllNew_eq_append {α : Type} [DecidableEq α] {l new : List α} (h : (l ++ new).Nodup) :
    addAllNew l new = l ++ new := by
  induction new generalizing l with
  | nil => exact (List.append_nil l).symm
  | cons a new ih =>
    have hnew : a ∉ l := fun ha => (List.nodup_append.1 h).2.2 a ha a List.mem_cons_self rfl
    have hcons : addAllNew l (a :: new) = addAllNew (addNew l a) new := rfl
    rw [List.append_cons] at h ⊢
    rw [hcons, addNew, if_neg hnew, ih h]

end JarRemap
